import LL1.Proofs.Analysis.Follow
import LL1.Proofs.Analysis.Session

/-!
# What follows a key

FOLLOW sets hold nothing that does not follow. What stands behind a key in an alternative
follows it in what the left side derives, and if that vanishes, what follows the left side
follows the key. So each sweep and each round adds only what follows. The sets that the
rounds reach are also closed, and hence they are exactly what follows.
-/

namespace LL1

open Grammar

variable {g : Grammar} {cache : FirstCache} {key s t a : Symbol}

namespace Grammar

/-- The symbol `a` stands right behind `s` in a form that some key derives. Behind the end
of what the start symbol derives stands the end mark. -/
def Follows (g : Grammar) (s a : Symbol) : Prop :=
  (a = .endMark ∧ ∃ u, g.Derives [g.start] (u ++ [s])) ∨
    (a ≠ .epsilon ∧ ¬ g.isKey a ∧
      ∃ origin, g.isKey origin ∧ ∃ u v, g.Derives [origin] (u ++ s :: a :: v))

variable {u w x y : List Symbol} {origin : Symbol}

/-- An alternative puts one of its keys before what followed the left side, if the rest of
the alternative vanishes. -/
theorem derives_last_key (hepsilon : ¬ g.isKey .epsilon) (he : u ++ s :: w ∈ g.alternatives key)
    (hs : g.isKey s) (hvanishes : g.Vanishes w) (h : g.Derives [origin] (x ++ key :: y)) :
    g.Derives [origin] ((x ++ Expression.withoutEpsilon u) ++ s :: y) := by
  have hne : s ≠ .epsilon := fun heq => hepsilon (heq ▸ hs)
  have hreplaced : g.Derives [origin] (x ++ (Expression.withoutEpsilon (u ++ s :: w) ++ y)) :=
    h.tail (Step.replace x y he)
  have hrest : g.Derives (Expression.withoutEpsilon w ++ y) y := hvanishes.append (.refl y)
  rw [Expression.withoutEpsilon_append, Expression.withoutEpsilon_cons_of_ne hne] at hreplaced
  have hkept := (Derives.refl (g := g) (x ++ (Expression.withoutEpsilon u ++ [s]))).append hrest
  simp only [List.append_assoc, List.cons_append, List.nil_append] at hkept hreplaced ⊢
  exact hreplaced.trans hkept

theorem follows_of_starts (hepsilon : ¬ g.isKey .epsilon)
    (he : u ++ s :: w ∈ g.alternatives key) (hs : g.isKey s) (ha : a ≠ .epsilon)
    (hstarts : g.Starts w a) : g.Follows s a := by
  have hne : s ≠ .epsilon := fun heq => hepsilon (heq ▸ hs)
  obtain ⟨hkey, v, hv⟩ := (starts_iff_of_ne ha).mp hstarts
  have hderives := derives_of_mem_alternatives he
  rw [Expression.withoutEpsilon_append, Expression.withoutEpsilon_cons_of_ne hne] at hderives
  have hrest : g.Derives (s :: Expression.withoutEpsilon w) (s :: a :: v) :=
    (Derives.refl [s]).append hv
  refine Or.inr ⟨ha, hkey, key, isKey_of_mem_alternatives he, Expression.withoutEpsilon u, v, ?_⟩
  exact hderives.trans ((Derives.refl _).append hrest)

theorem Follows.of_left (hepsilon : ¬ g.isKey .epsilon) (he : u ++ s :: w ∈ g.alternatives key)
    (hs : g.isKey s) (hvanishes : g.Vanishes w) (h : g.Follows key a) : g.Follows s a := by
  rcases h with ⟨ha, x, hx⟩ | ⟨ha, hkey, origin, horigin, x, y, hxy⟩
  · exact Or.inl ⟨ha, _, derives_last_key hepsilon he hs hvanishes hx⟩
  · exact Or.inr ⟨ha, hkey, origin, horigin, _, y, derives_last_key hepsilon he hs hvanishes hxy⟩

end Grammar

namespace Follow

variable {f : FollowSets} {left : Symbol} {u v : List Symbol} {sweep : Sweep}
  {symbols : List Symbol}

/-- What the sets hold follows. -/
def Justified (g : Grammar) (f : FollowSets) : Prop := ∀ s, ∀ a ∈ ofKey f s, g.Follows s a

theorem justified_initial : Justified g (initial g) := by
  intro s a ha
  obtain ⟨rfl, rfl⟩ := mem_ofKey_initial.mp ha
  exact Or.inl ⟨rfl, [], .refl _⟩

theorem Justified.extend (h : Justified g f) (hsymbols : ∀ a ∈ symbols, g.Follows s a) :
    Justified g (extend f s symbols) := by
  intro t a hmem
  rcases mem_ofKey_extend.mp hmem with ha | ⟨rfl, ha⟩
  · exact h t a ha
  · exact hsymbols a ha

/-- One step of a sweep adds FIRST of what has been read, and then the set of the left
side. -/
theorem Justified.step (hepsilon : ¬ g.isKey .epsilon) (hswept : Swept g left f v sweep)
    (he : u ++ s :: v ∈ g.alternatives left) (h : Justified g sweep.follow) :
    Justified g (Sweep.step g cache left s sweep).follow := by
  simp only [Sweep.step]
  by_cases hs : g.isKey s
  · rw [if_pos hs]
    have hfirst : Justified g (Follow.extend sweep.follow s sweep.first.toList) := by
      refine h.extend fun a ha => ?_
      obtain ⟨hne, hstarts⟩ := (hswept.mem_first a).mp (OrderedSet.mem_toList.mp ha)
      exact follows_of_starts hepsilon he hs hne hstarts
    by_cases hleft : (sweep.nullable && decide (s ≠ left)) = true
    · rw [if_pos hleft]
      have hvanishes : g.Vanishes v := hswept.nullable_iff.mp (Bool.and_eq_true_iff.mp hleft).1
      refine hfirst.extend fun a ha => ?_
      exact (hfirst left a (OrderedSet.mem_toList.mp ha)).of_left hepsilon he hs hvanishes
    · rw [if_neg hleft]
      exact hfirst
  · rw [if_neg hs]
    exact h

theorem justified_foldr (hepsilon : ¬ g.isKey .epsilon) (hcomplete : cache.Complete g)
    (hf : Ranged g f) (h : Justified g f) (he : u ++ v ∈ g.alternatives left) :
    Justified g (v.foldr (Sweep.step g cache left) ⟨f, ∅, true⟩).follow := by
  induction v generalizing u with
  | nil => exact h
  | cons s v ih =>
    have hbehind : (u ++ [s]) ++ v ∈ g.alternatives left := by simpa using he
    have hv : ∀ t ∈ v, t ∈ g.occurring :=
      fun t ht => mem_occurring hbehind (List.mem_append_right _ ht)
    exact (ih hbehind).step hepsilon (swept_foldr hcomplete hf v hv) he

theorem justified_foldl (hepsilon : ¬ g.isKey .epsilon) (hcomplete : cache.Complete g)
    {rules : List Rule} (hrules : ∀ rule ∈ rules, rule ∈ g.ruleList) (hf : Ranged g f)
    (h : Justified g f) : Justified g (rules.foldl (ofAlternative g cache) f) := by
  induction rules generalizing f with
  | nil => exact h
  | cons rule rules ih =>
    rw [List.forall_mem_cons] at hrules
    have hranged := (swept_ofAlternative hcomplete hf hrules.1).ranged
    have he : [] ++ rule.right ∈ g.alternatives rule.left := mem_ruleList.mp hrules.1
    exact ih hrules.2 hranged (justified_foldr hepsilon hcomplete hf h he)

theorem justified_followSets (hepsilon : ¬ g.isKey .epsilon) (hcomplete : cache.Complete g) :
    Justified g (g.followSets cache).follow := by
  have hround : ∀ f, Ranged g f ∧ Justified g f →
      Ranged g (round g cache f) ∧ Justified g (round g cache f) := fun f hf =>
    ⟨(grows_round hcomplete.within hf.1).2,
      justified_foldl hepsilon hcomplete (fun _ hrule => hrule) hf.1 hf.2⟩
  exact (settle_induction hround (roundLimit g) ⟨ranged_initial, justified_initial⟩).2

end Follow

/-! ## FOLLOW of a key -/

namespace Grammar

/-- A set holds FOLLOW of a key: the symbols without a rule that stand right behind it in
forms that keys derive, and the end mark if it is last in a form that the start symbol
derives. -/
structure HoldsFollow (g : Grammar) (key : Symbol) (follow : SymbolSet) : Prop where
  mem_iff {t : Symbol} : ¬ g.isKey t → t ≠ .epsilon → t ≠ .endMark →
    (t ∈ follow ↔ ∃ origin, g.isKey origin ∧ ∃ u v, g.Derives [origin] (u ++ key :: t :: v))
  endMark_mem_iff : .endMark ∈ follow ↔ ∃ u, g.Derives [g.start] (u ++ [key])
  epsilon_not_mem : .epsilon ∉ follow
  not_mem_of_isKey {s : Symbol} : g.isKey s → s ∉ follow

theorem holdsFollow {f : FollowSets} (hepsilon : ¬ g.isKey .epsilon) (hend : ¬ g.isKey .endMark)
    (hunused : .endMark ∉ g.occurring) (hclosed : Follow.Closed g f)
    (hjustified : Follow.Justified g f) (hkey : g.isKey key) :
    g.HoldsFollow key (Follow.ofKey f key) where
  mem_iff {t} ht hne hlast := by
    constructor
    · intro hmem
      rcases hjustified key t hmem with ⟨heq, _⟩ | ⟨_, _, hfollows⟩
      · exact absurd heq hlast
      · exact hfollows
    · rintro ⟨origin, _, u, v, hderives⟩
      have hcovers := hclosed.coversFrom_of_derives hepsilon hderives u key (t :: v) rfl hkey
      exact hcovers.1 t hne (starts_cons_self hne ht v)
  endMark_mem_iff := by
    constructor
    · intro hmem
      rcases hjustified key _ hmem with ⟨_, hlast⟩ | ⟨_, _, origin, horigin, u, v, hderives⟩
      · exact hlast
      · -- the end mark would have to come from an alternative
        have hmem : Symbol.endMark ∈ u ++ key :: .endMark :: v := by simp
        rcases mem_occurring_of_derives hderives hmem with heq | hoccurs
        · rw [List.mem_singleton] at heq
          exact absurd (heq ▸ horigin) hend
        · exact absurd hoccurs hunused
    · rintro ⟨u, hderives⟩
      exact (hclosed.covers_of_derives hepsilon hderives u key [] rfl hkey).2 vanishes_nil
  epsilon_not_mem hmem := by
    rcases hjustified key _ hmem with ⟨heq, _⟩ | ⟨hne, _⟩
    · exact absurd heq (by decide)
    · exact hne rfl
  not_mem_of_isKey {s} hs hmem := by
    rcases hjustified key s hmem with ⟨rfl, _⟩ | ⟨_, hnot, _⟩
    · exact hend hs
    · exact hnot hs

/-- Where the end mark is not in use, every key of a session has a set, and that is FOLLOW
of the key. -/
theorem Session.follow_exact {a : Analysis} (hepsilon : ¬ g.isKey .epsilon)
    (hend : ¬ g.isKey .endMark) (hunused : ∀ key, ∀ e ∈ g.alternatives key, .endMark ∉ e)
    (h : g.Session a) (hkey : g.isKey key) :
    ∃ follow, a.follow? key = some follow ∧ g.HoldsFollow key follow := by
  obtain ⟨cache, hfaithful, hrecorded, hsettled⟩ := h.analyzed.exists_settled
  have hcomplete := hfaithful.complete hepsilon hrecorded
  have hmem : key ∈ (g.followSets cache).follow :=
    ((Follow.ranged_followSets hcomplete).mem_iff key).mpr (Or.inl hkey)
  obtain ⟨follow, hfollow⟩ := Option.isSome_iff_exists.mp (OrderedMap.mem_iff.mp hmem)
  have hunused : .endMark ∉ g.occurring := by
    intro hoccurs
    obtain ⟨key, e, he, hmem⟩ := exists_of_mem_occurring hoccurs
    exact hunused key e he hmem
  have hheld := holdsFollow hepsilon hend hunused (Follow.closed_followSets hcomplete)
    (Follow.justified_followSets hepsilon hcomplete) hkey
  unfold Follow.ofKey at hheld
  rw [hfollow] at hheld
  refine ⟨follow, ?_, hheld⟩
  unfold Analysis.follow?
  rw [hsettled]
  exact hfollow

/-- The key `C` ends what `A` derives, and behind `A` stands a key that vanishes. -/
def suffixes : Grammar :=
  let s := Symbol.nonTerminal "S"
  let a := Symbol.nonTerminal "A"
  let b := Symbol.nonTerminal "B"
  let c := Symbol.nonTerminal "C"
  ((((Grammar.ofStart s).add s [[a, b, .terminal "x"], [b, a]]).add a [[.terminal "a", c]]).add b
    [[.terminal "b"], [.epsilon]]).add c [[.terminal "c", c], [.epsilon]]

theorem follow_exact_suffixes :
    ¬ suffixes.isKey .epsilon ∧ ¬ suffixes.isKey .endMark ∧
      (∀ key, ∀ e ∈ suffixes.alternatives key, .endMark ∉ e) ∧
      suffixes.isKey (.nonTerminal "C") ∧ ∃ a, suffixes.Session a ∧ ∃ follow,
        a.follow? (.nonTerminal "C") = some follow ∧
          follow.toList = [.terminal "x", .terminal "b", .endMark] ∧
          suffixes.HoldsFollow (.nonTerminal "C") follow := by
  have hepsilon : ¬ suffixes.isKey .epsilon := by decide +kernel
  have hend : ¬ suffixes.isKey .endMark := by decide +kernel
  have hkey : suffixes.isKey (.nonTerminal "C") := by decide +kernel
  have hall : ∀ key ∈ suffixes.keys, ∀ e ∈ suffixes.alternatives key, .endMark ∉ e := by
    decide +kernel
  have hunused : ∀ key, ∀ e ∈ suffixes.alternatives key, .endMark ∉ e :=
    fun key e he => hall key (mem_keys.mpr (isKey_of_mem_alternatives he)) e he
  have heval : (suffixes.analyze.map fun a => (a.follow? (.nonTerminal "C")).map (·.toList)) =
      .ok (some [.terminal "x", .terminal "b", .endMark]) := by
    decide +kernel
  obtain ⟨a, ha, hlist⟩ := map_eq_ok_iff.mp heval
  obtain ⟨follow, hfollow, hheld⟩ := Session.follow_exact hepsilon hend hunused (.start ha) hkey
  rw [hfollow] at hlist
  exact ⟨hepsilon, hend, hunused, hkey, a, .start ha, follow, hfollow, Option.some.inj hlist, hheld⟩

end Grammar
end LL1
