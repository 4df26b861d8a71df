import LL1.Proofs.Analysis.First
import Mathlib.Algebra.Order.BigOperators.Group.List
import Mathlib.Algebra.Order.Ring.Nat

/-!
# FOLLOW rounds end

A round only adds symbols behind those that are there. The maps that rounds pass
through have the keys and the start symbol as keys, and their sets hold symbols of
alternatives and the end mark, so the sizes of the sets cannot add up to more than the
limit on the number of rounds. A round that changes something makes the sum grow.
Hence the last round has changed nothing.
-/

namespace LL1

open Grammar

variable {g : Grammar} {cache : FirstCache}

/-- The set holds what occurs in alternatives, and possibly the empty string. -/
def SymbolSet.Occurs (g : Grammar) (set : SymbolSet) : Prop :=
  ∀ a ∈ set, a = .epsilon ∨ a ∈ g.occurring

/-- FIRST of what occurs in alternatives holds what occurs there. -/
def FirstCache.Within (g : Grammar) (cache : FirstCache) : Prop :=
  ∀ s ∈ g.occurring, SymbolSet.Occurs g (cache.ofSymbol g s)

namespace Follow

variable {f f' f'' : FollowSets} {s t a : Symbol} {symbols : List Symbol}

/-! ## Growth -/

theorem ofKey_extend_self : ofKey (extend f s symbols) s = (ofKey f s).insertMany symbols := by
  rw [extend, ofKey, OrderedMap.get?_insert, if_pos rfl, Option.getD_some]

theorem ofKey_extend_of_ne (h : t ≠ s) : ofKey (extend f s symbols) t = ofKey f t := by
  rw [extend, ofKey, OrderedMap.get?_insert, if_neg h, ofKey]

theorem mem_ofKey_extend :
    a ∈ ofKey (extend f s symbols) t ↔ a ∈ ofKey f t ∨ (t = s ∧ a ∈ symbols) := by
  by_cases hts : t = s
  · rw [hts, ofKey_extend_self, OrderedSet.mem_insertMany, and_iff_right rfl]
  · rw [ofKey_extend_of_ne hts]
    exact (or_iff_left fun h => hts h.1).symm

/-- The same keys, and every set goes on behind what it was. -/
structure Grows (f f' : FollowSets) : Prop where
  keys_eq : f'.keys = f.keys
  isPrefix (s : Symbol) : (ofKey f s).toList <+: (ofKey f' s).toList

theorem Grows.refl (f : FollowSets) : Grows f f := ⟨rfl, fun _ => List.prefix_rfl⟩

theorem Grows.trans (h : Grows f f') (h' : Grows f' f'') : Grows f f'' :=
  ⟨h'.keys_eq.trans h.keys_eq, fun s => (h.isPrefix s).trans (h'.isPrefix s)⟩

theorem Grows.mem (h : Grows f f') (ha : a ∈ ofKey f s) : a ∈ ofKey f' s := by
  rw [← OrderedSet.mem_toList] at ha ⊢
  exact (h.isPrefix s).subset ha

theorem Grows.mem_iff (h : Grows f f') : s ∈ f' ↔ s ∈ f := by
  rw [← OrderedMap.mem_keys, h.keys_eq, OrderedMap.mem_keys]

theorem grows_extend (hs : s ∈ f) (symbols : List Symbol) : Grows f (extend f s symbols) := by
  constructor
  · unfold extend
    rw [OrderedMap.keys_insert, if_pos hs]
  · intro t
    by_cases hts : t = s
    · rw [hts, ofKey_extend_self]
      exact (ofKey f s).toList_isPrefix_insertMany symbols
    · have hsame : ofKey (extend f s symbols) t = ofKey f t := ofKey_extend_of_ne hts
      exact hsame ▸ List.prefix_rfl

/-- The number of symbols in all sets. -/
def total (f : FollowSets) : Nat := (f.keys.map fun s => (ofKey f s).size).sum

/-- Sums of which the greater ones are not greater have the same terms. -/
theorem eq_of_sum_map_le {α : Type} {l : List α} {m n : α → Nat} (h : ∀ x ∈ l, m x ≤ n x)
    (hsum : (l.map n).sum ≤ (l.map m).sum) : ∀ x ∈ l, m x = n x := by
  induction l with
  | nil => simp
  | cons x l ih =>
    rw [List.forall_mem_cons] at h ⊢
    rw [List.map_cons, List.map_cons, List.sum_cons, List.sum_cons] at hsum
    have hrest := List.sum_le_sum h.2
    have hx := h.1
    exact ⟨by omega, ih h.2 (by omega)⟩

theorem Grows.size_le (h : Grows f f') (s : Symbol) : (ofKey f s).size ≤ (ofKey f' s).size := by
  rw [← OrderedSet.length_toList, ← OrderedSet.length_toList]
  exact (h.isPrefix s).length_le

/-- A map that does not grow in total does not change. -/
theorem Grows.eq_of_total_le (h : Grows f f') (htotal : total f' ≤ total f) : f' = f := by
  unfold total at htotal
  rw [h.keys_eq] at htotal
  have hsizes := eq_of_sum_map_le (fun s _ => h.size_le s) htotal
  refine OrderedMap.ext_get? h.keys_eq fun s => ?_
  by_cases hs : s ∈ f
  · have hlists : (ofKey f s).toList = (ofKey f' s).toList := by
      refine (h.isPrefix s).eq_of_length ?_
      rw [OrderedSet.length_toList, OrderedSet.length_toList]
      exact hsizes s (OrderedMap.mem_keys.mpr hs)
    have hsets := OrderedSet.ext hlists
    obtain ⟨set, hset⟩ := Option.isSome_iff_exists.mp (OrderedMap.mem_iff.mp hs)
    obtain ⟨set', hset'⟩ :=
      Option.isSome_iff_exists.mp (OrderedMap.mem_iff.mp (h.mem_iff.mpr hs))
    unfold ofKey at hsets
    rw [hset, hset', Option.getD_some, Option.getD_some] at hsets
    rw [hset, hset', hsets]
  · have hs' : s ∉ f' := fun hs' => hs (h.mem_iff.mp hs')
    rw [OrderedMap.mem_iff, Option.not_isSome_iff_eq_none] at hs hs'
    rw [hs, hs']

/-! ## Range -/

/-- The maps that rounds pass through. -/
structure Ranged (g : Grammar) (f : FollowSets) : Prop where
  mem_iff (s : Symbol) : s ∈ f ↔ g.isKey s ∨ s = g.start
  mem_cases {s a : Symbol} : a ∈ ofKey f s → a = .endMark ∨ a ∈ g.occurring

theorem Ranged.extend (h : Ranged g f) (hs : s ∈ f)
    (hsymbols : ∀ a ∈ symbols, a = .endMark ∨ a ∈ g.occurring) :
    Ranged g (extend f s symbols) := by
  refine ⟨fun t => ?_, fun ha => ?_⟩
  · rw [(grows_extend hs symbols).mem_iff]
    exact h.mem_iff t
  · rcases mem_ofKey_extend.mp ha with ha | ha
    · exact h.mem_cases ha
    · exact hsymbols _ ha.2

theorem Ranged.size_le (h : Ranged g f) (s : Symbol) : (ofKey f s).size ≤ g.occurring.size + 1 := by
  have hsub : (ofKey f s).toList ⊆ .endMark :: g.occurring.toList := by
    intro a ha
    rw [List.mem_cons, OrderedSet.mem_toList]
    exact h.mem_cases (OrderedSet.mem_toList.mp ha)
  have hlength := (ofKey f s).nodup_toList.length_le_of_subset hsub
  rw [OrderedSet.length_toList, List.length_cons, OrderedSet.length_toList] at hlength
  exact hlength

theorem Ranged.total_le (h : Ranged g f) :
    total f ≤ (g.keys.length + 1) * (g.occurring.size + 1) := by
  have hsub : f.keys ⊆ g.start :: g.keys := by
    intro s hs
    rw [List.mem_cons, mem_keys, or_comm]
    exact (h.mem_iff s).mp (OrderedMap.mem_keys.mp hs)
  have hlength := f.nodup_keys.length_le_of_subset hsub
  rw [List.length_cons] at hlength
  have hsum : total f ≤ f.keys.length * (g.occurring.size + 1) := by
    have hbound : ∀ n ∈ f.keys.map fun s => (ofKey f s).size, n ≤ g.occurring.size + 1 := by
      intro n hn
      obtain ⟨s, _, rfl⟩ := List.mem_map.mp hn
      exact h.size_le s
    have hcard := List.sum_le_card_nsmul _ _ hbound
    rwa [List.length_map, Nat.nsmul_eq_mul] at hcard
  exact Nat.le_trans hsum (Nat.mul_le_mul_right _ hlength)

/-! ## Sweeps -/

/-- A sweep that holds nothing but what rounds may add. -/
structure Sweep.Within (g : Grammar) (sweep : Sweep) : Prop where
  ranged : Ranged g sweep.follow
  mem_occurring {a : Symbol} : a ∈ sweep.first → a ∈ g.occurring

variable {left : Symbol} {sweep : Sweep}

/-- What is read behind a key is added to its set. -/
theorem Sweep.Within.extend (h : sweep.Within g) (hs : g.isKey s) :
    Ranged g (extend sweep.follow s sweep.first.toList) ∧
      Grows sweep.follow (extend sweep.follow s sweep.first.toList) := by
  have hmem : s ∈ sweep.follow := (h.ranged.mem_iff s).mpr (Or.inl hs)
  refine ⟨h.ranged.extend hmem fun a ha => Or.inr ?_, grows_extend hmem _⟩
  exact h.mem_occurring (OrderedSet.mem_toList.mp ha)

theorem Sweep.Within.grows_step (h : sweep.Within g) :
    Ranged g (step g cache left s sweep).follow ∧
      Grows sweep.follow (step g cache left s sweep).follow := by
  by_cases hs : g.isKey s
  · obtain ⟨hranged, hgrows⟩ := h.extend hs
    simp only [step, if_pos hs]
    by_cases hleft : (sweep.nullable && decide (s ≠ left)) = true
    · rw [if_pos hleft]
      have hmem : s ∈ Follow.extend sweep.follow s sweep.first.toList :=
        (hranged.mem_iff s).mpr (Or.inl hs)
      refine ⟨hranged.extend hmem fun a ha => ?_, hgrows.trans (grows_extend hmem _)⟩
      exact hranged.mem_cases (OrderedSet.mem_toList.mp ha)
    · rw [if_neg hleft]
      exact ⟨hranged, hgrows⟩
  · simp only [step, if_neg hs]
    exact ⟨h.ranged, .refl _⟩

theorem Sweep.Within.step (h : sweep.Within g) (hcache : cache.Within g) (hs : s ∈ g.occurring) :
    (step g cache left s sweep).Within g := by
  refine ⟨h.grows_step.1, fun {a} ha => ?_⟩
  change a ∈ (if (cache.ofSymbol g s).nullable then
    sweep.first.insertMany (cache.ofSymbol g s).nonEpsilon else cache.ofSymbol g s) at ha
  by_cases hnull : (cache.ofSymbol g s).nullable
  · rw [if_pos hnull, OrderedSet.mem_insertMany, SymbolSet.mem_nonEpsilon] at ha
    rcases ha with ha | ⟨hne, ha⟩
    · exact h.mem_occurring ha
    · exact (hcache s hs a ha).resolve_left hne
  · rw [if_neg hnull] at ha
    refine (hcache s hs a ha).resolve_left fun heq => hnull ?_
    rw [heq] at ha
    exact SymbolSet.nullable_iff.mpr ha

theorem within_foldr (hcache : cache.Within g) (hf : Ranged g f) (left : Symbol) (v : List Symbol)
    (hv : ∀ t ∈ v, t ∈ g.occurring) :
    (v.foldr (Sweep.step g cache left) ⟨f, ∅, true⟩).Within g ∧
      Grows f (v.foldr (Sweep.step g cache left) ⟨f, ∅, true⟩).follow := by
  induction v with
  | nil => exact ⟨⟨hf, fun ha => absurd ha OrderedSet.not_mem_empty⟩, .refl f⟩
  | cons s v ih =>
    obtain ⟨hs, hv⟩ := List.forall_mem_cons.mp hv
    obtain ⟨hwithin, hgrows⟩ := ih hv
    exact ⟨hwithin.step hcache hs, hgrows.trans hwithin.grows_step.2⟩

/-! ## Rounds -/

theorem grows_rules (hcache : cache.Within g) {rules : List Rule}
    (hrules : ∀ rule ∈ rules, rule ∈ g.ruleList) (hf : Ranged g f) :
    Grows f (rules.foldl (ofAlternative g cache) f) ∧
      Ranged g (rules.foldl (ofAlternative g cache) f) := by
  induction rules generalizing f with
  | nil => exact ⟨.refl f, hf⟩
  | cons rule rules ih =>
    obtain ⟨hrule, hrules⟩ := List.forall_mem_cons.mp hrules
    obtain ⟨hwithin, hgrows⟩ := within_foldr hcache hf rule.left rule.right fun _ ht =>
      mem_occurring (mem_ruleList.mp hrule) ht
    obtain ⟨hgrows', hranged⟩ := ih hrules hwithin.ranged
    exact ⟨hgrows.trans hgrows', hranged⟩

theorem grows_round (hcache : cache.Within g) (hf : Ranged g f) :
    Grows f (round g cache f) ∧ Ranged g (round g cache f) :=
  grows_rules hcache (fun _ hrule => hrule) hf

/-- Some set has another length. -/
def Changes (f f' : FollowSets) : Prop := ∃ s, (ofKey f s).size ≠ (ofKey f' s).size

theorem Grows.changes_iff (h : Grows f f') : Changes f f' ↔ f' ≠ f := by
  constructor
  · intro hchanges heq
    obtain ⟨s, hs⟩ := hchanges
    exact hs (by rw [heq])
  · intro hne
    by_contra hsame
    have hsizes : ∀ s ∈ f.keys, (ofKey f' s).size = (ofKey f s).size := by
      intro s _
      by_contra hs
      exact hsame ⟨s, Ne.symm hs⟩
    refine hne (h.eq_of_total_le (Nat.le_of_eq ?_))
    rw [total, total, h.keys_eq, List.map_congr_left hsizes]

/-- Where rounds end that go on as long as they change something, however many they are. -/
inductive Settles (g : Grammar) (cache : FirstCache) : FollowSets → Settled → Prop
  | last {f : FollowSets} (h : ¬ Changes f (round g cache f)) :
    Settles g cache f ⟨round g cache f, 1⟩
  | more {f : FollowSets} {settled : Settled} (h : Changes f (round g cache f))
    (hs : Settles g cache (round g cache f) settled) :
    Settles g cache f ⟨settled.follow, settled.rounds + 1⟩

variable {settled settled' : Settled}

theorem Settles.unique (h : Settles g cache f settled) (h' : Settles g cache f settled') :
    settled = settled' := by
  induction h generalizing settled' with
  | last hsame =>
    cases h' with
    | last => rfl
    | more hchanges => exact absurd hchanges hsame
  | more hchanges _ ih =>
    cases h' with
    | last hsame => exact absurd hchanges hsame
    | more _ hs => rw [ih hs]

/-- The last round leaves the sets as they are. -/
theorem Settles.round_eq (hcache : cache.Within g) (h : Settles g cache f settled)
    (hf : Ranged g f) : round g cache settled.follow = settled.follow ∧
      Grows f settled.follow ∧ Ranged g settled.follow := by
  induction h with
  | @last f hsame =>
    obtain ⟨hgrows, _⟩ := grows_round hcache hf
    have hfixed : round g cache f = f := by
      by_contra hne
      exact hsame (hgrows.changes_iff.mpr hne)
    show round g cache (round g cache f) = round g cache f ∧ Grows f (round g cache f) ∧
      Ranged g (round g cache f)
    rw [hfixed, hfixed]
    exact ⟨rfl, .refl f, hf⟩
  | more _ _ ih =>
    obtain ⟨hgrows, hranged⟩ := grows_round hcache hf
    obtain ⟨hfixed, hgrows', hranged'⟩ := ih hranged
    exact ⟨hfixed, hgrows.trans hgrows', hranged'⟩

/-- A budget of rounds does not run out if it exceeds the symbols that can be added, since
each round but the last adds one. -/
theorem settles_settle (hcache : cache.Within g) (budget : Nat) (hf : Ranged g f)
    (hbudget : (g.keys.length + 1) * (g.occurring.size + 1) < budget + total f) :
    Settles g cache f (settle g cache budget f) ∧
      (settle g cache budget f).rounds + total f ≤
        1 + (g.keys.length + 1) * (g.occurring.size + 1) := by
  have hle := hf.total_le
  induction budget generalizing f with
  | zero => omega
  | succ budget ih =>
    obtain ⟨hgrows, hranged⟩ := grows_round hcache hf
    unfold settle
    by_cases hfixed : round g cache f = f
    · have hlast : Settles g cache f ⟨round g cache f, 1⟩ :=
        .last fun hchanges => hgrows.changes_iff.mp hchanges hfixed
      rw [hfixed] at hlast
      rw [if_pos hfixed]
      exact ⟨hlast, Nat.add_le_add_left hle 1⟩
    · rw [if_neg hfixed]
      have hmore : total f < total (round g cache f) := by
        by_contra hless
        exact hfixed (hgrows.eq_of_total_le (Nat.le_of_not_lt hless))
      obtain ⟨hsettles, hrounds⟩ := ih hranged (by omega) hranged.total_le
      refine ⟨.more (hgrows.changes_iff.mpr hfixed) hsettles, ?_⟩
      show (settle g cache budget (round g cache f)).rounds + 1 + total f ≤ _
      omega

/-- What every round keeps holds of the sets that the rounds reach. -/
theorem settle_induction {P : FollowSets → Prop} (hround : ∀ f, P f → P (round g cache f))
    (budget : Nat) (hf : P f) : P (settle g cache budget f).follow := by
  induction budget generalizing f with
  | zero => exact hf
  | succ budget ih =>
    unfold settle
    by_cases hfixed : round g cache f = f
    · rw [if_pos hfixed]
      exact hf
    · rw [if_neg hfixed]
      exact ih (hround f hf)

theorem mem_initial {s : Symbol} : s ∈ initial g ↔ g.isKey s ∨ s = g.start := by
  unfold initial extend
  rw [OrderedMap.mem_insert, OrderedMap.ofList, OrderedMap.mem_insertMany, List.map_map]
  have hkeys : g.keys.map (Prod.fst ∘ fun key => (key, (∅ : SymbolSet))) = g.keys :=
    List.map_id g.keys
  rw [hkeys, mem_keys, ← OrderedMap.mem_keys, OrderedMap.keys_empty]
  simp

theorem ofKey_insertMany_empty (keys : List Symbol) (hf : ∀ s, ofKey f s = ∅) (s : Symbol) :
    ofKey (f.insertMany (keys.map fun key => (key, ∅))) s = ∅ := by
  induction keys generalizing f with
  | nil => exact hf s
  | cons key keys ih =>
    rw [List.map_cons, OrderedMap.insertMany_cons]
    refine ih fun t => ?_
    have ht := hf t
    unfold ofKey at ht ⊢
    rw [OrderedMap.get?_insert]
    by_cases heq : t = key
    · rw [if_pos heq, Option.getD_some]
    · rw [if_neg heq, ht]

theorem mem_ofKey_initial {s a : Symbol} : a ∈ ofKey (initial g) s ↔ s = g.start ∧ a = .endMark := by
  have hempty : ∀ s, ofKey ∅ s = ∅ := fun s => by
    rw [ofKey, OrderedMap.get?_empty, Option.getD_none]
  rw [initial, mem_ofKey_extend, List.mem_singleton, OrderedMap.ofList,
    ofKey_insertMany_empty g.keys hempty]
  exact or_iff_right OrderedSet.not_mem_empty

theorem ranged_initial : Ranged g (initial g) :=
  ⟨fun _ => mem_initial, fun ha => Or.inl (mem_ofKey_initial.mp ha).2⟩

/-- The limit leaves the rounds enough room to settle. -/
theorem settles_followSets (hcache : cache.Within g) :
    Settles g cache (initial g) (g.followSets cache) ∧
      (g.followSets cache).rounds ≤ roundLimit g := by
  have hbudget : (g.keys.length + 1) * (g.occurring.size + 1) <
      roundLimit g + total (initial g) := by
    unfold roundLimit
    omega
  obtain ⟨hsettles, hrounds⟩ := settles_settle hcache (roundLimit g) ranged_initial hbudget
  exact ⟨hsettles, Nat.le_trans (Nat.le_add_right _ _) hrounds⟩

end Follow
end LL1
