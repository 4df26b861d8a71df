import LL1.LeftRecursion.Elimination
import LL1.Proofs.Derivation
import Mathlib.Data.List.Basic
import Mathlib.Logic.Function.Iterate

/-!
# What elimination does

The pass is described by its result alone. The alternatives of a key are expanded
with the final alternatives of the keys before it. If nothing is left that starts
with the key itself, they are final. Otherwise the key has a helper, and the
alternatives of both are determined by the expanded ones.

Everything else about the elimination is derived from this description, which
names neither the order of the moves nor the state between two of them.
-/

namespace LL1

open Elimination

theorem Expression.isLedBy_iff {e : Expression} {s : Symbol} :
    e.isLedBy s ↔ s ≠ .epsilon ∧ ∃ rest, e = s :: rest := by
  simp [isLedBy, Symbol.isEpsilon, List.head?_eq_some_iff]

namespace Elimination

variable {s key : Symbol} {e : Expression} {body alternatives : List Expression}

theorem mem_substitute : e ∈ substitute s body alternatives ↔
    (s ≠ .epsilon ∧ ∃ rest, s :: rest ∈ alternatives ∧
      ∃ replacement ∈ body, e = replacement.join rest) ∨
    (e ∈ alternatives ∧ ¬ e.isLedBy s) := by
  unfold substitute
  rw [List.mem_append, List.mem_flatMap, List.mem_filter, Bool.not_eq_true']
  refine or_congr ⟨?_, ?_⟩ (and_congr_right' (by simp))
  · rintro ⟨f, hf, he⟩
    obtain ⟨hf, hled⟩ := List.mem_filter.mp hf
    obtain ⟨hs, rest, rfl⟩ := Expression.isLedBy_iff.mp hled
    obtain ⟨replacement, hreplacement, rfl⟩ := List.mem_map.mp he
    exact ⟨hs, rest, hf, replacement, hreplacement, rfl⟩
  · rintro ⟨hs, rest, hf, replacement, hreplacement, rfl⟩
    refine ⟨s :: rest, List.mem_filter.mpr ⟨hf, ?_⟩, List.mem_map.mpr ⟨replacement, hreplacement, rfl⟩⟩
    exact Expression.isLedBy_iff.mpr ⟨hs, rest, rfl⟩

theorem mem_recursiveTails : e ∈ recursiveTails key alternatives ↔
    key ≠ .epsilon ∧ e ≠ [] ∧ key :: e ∈ alternatives := by
  unfold recursiveTails
  simp only [List.mem_map, List.mem_filter, Bool.and_eq_true, decide_eq_true_eq]
  constructor
  · rintro ⟨f, ⟨hf, hled, hlength⟩, rfl⟩
    obtain ⟨hkey, rest, rfl⟩ := Expression.isLedBy_iff.mp hled
    refine ⟨hkey, fun hnil => ?_, hf⟩
    rw [List.tail_cons] at hnil
    simp [hnil] at hlength
  · rintro ⟨hkey, hnil, hf⟩
    refine ⟨key :: e, ⟨hf, Expression.isLedBy_iff.mpr ⟨hkey, e, rfl⟩, ?_⟩, rfl⟩
    have := List.length_pos_iff.mpr hnil
    simp only [List.length_cons]
    omega

theorem mem_otherAlternatives : e ∈ otherAlternatives key alternatives ↔
    e ∈ alternatives ∧ ¬ e.isLedBy key := by
  simp [otherAlternatives]

/-- The alternatives of a helper. -/
def repetition (helper : Symbol) (tails : List Expression) : List Expression :=
  tails.map (·.join [helper]) ++ [Expression.epsilon]

/-- How a list of bodies continues the expanded alternatives of a key. -/
def Settles (bodies : List Body) (key : Symbol) (alternatives : List Expression) :
    Option Symbol → Prop
  | none => recursiveTails key alternatives = [] ∧
      (key, otherAlternatives key alternatives) ∈ bodies
  | some helper => recursiveTails key alternatives ≠ [] ∧
      (key, (otherAlternatives key alternatives).map (·.join [helper])) ∈ bodies ∧
      (helper, repetition helper (recursiveTails key alternatives)) ∈ bodies

theorem Settles.mono {bodies bodies' : List Body} {key : Symbol} {alternatives : List Expression}
    {helper : Option Symbol} (h : Settles bodies key alternatives helper)
    (hsub : ∀ b ∈ bodies, b ∈ bodies') : Settles bodies' key alternatives helper := by
  cases helper with
  | none => exact ⟨h.1, hsub _ h.2⟩
  | some helper => exact ⟨h.1, hsub _ h.2.1, hsub _ h.2.2⟩

theorem length_prime_iterate (s : Symbol) (n : Nat) :
    (Symbol.prime^[n] s).content.toList.length = s.content.toList.length + n := by
  induction n with
  | zero => rfl
  | succ n ih =>
    rw [Function.iterate_succ_apply', Symbol.length_prime, ih]
    omega

theorem prime_iterate_ne (s : Symbol) (n : Nat) : Symbol.prime^[n + 1] s ≠ s := by
  intro heq
  have hlength := length_prime_iterate s (n + 1)
  rw [heq] at hlength
  omega

/-- The name that is found is the first one that is free. A name that was passed over is
shorter, so it does not matter that it is no longer looked for. -/
theorem firstFree_spec (taken : List Symbol) (s : Symbol) :
    ∃ n ≤ taken.length, firstFree taken s = Symbol.prime^[n] s ∧ Symbol.prime^[n] s ∉ taken ∧
      ∀ m < n, Symbol.prime^[m] s ∈ taken := by
  rw [firstFree]
  by_cases hmem : s ∈ taken
  · rw [if_pos hmem]
    have hpos := List.length_pos_of_mem hmem
    have herase := List.length_erase_of_mem hmem
    obtain ⟨n, hn, heq, hfree, hpassed⟩ := firstFree_spec (taken.erase s) s.prime
    refine ⟨n + 1, by omega, heq, fun htaken => hfree ?_, fun m hm => ?_⟩
    · exact (List.mem_erase_of_ne (prime_iterate_ne s n)).mpr htaken
    · cases m with
      | zero => exact hmem
      | succ m => exact List.mem_of_mem_erase (hpassed m (by omega))
  · rw [if_neg hmem]
    exact ⟨0, Nat.zero_le _, rfl, hmem, fun m hm => absurd hm (Nat.not_lt_zero m)⟩
termination_by taken.length
decreasing_by omega

end Elimination

namespace Grammar

variable {g r : Grammar} {key : Symbol}

/-- The keys that are treated before a key. -/
def keysBefore (g : Grammar) (key : Symbol) : List Symbol := g.keys.takeWhile (· ≠ key)

theorem keysBefore_eq {before after : List Symbol} (h : g.keys = before ++ key :: after) :
    g.keysBefore key = before := by
  have hnodup := g.nodup_keys
  rw [h] at hnodup
  have hnew : ∀ s ∈ before, s ≠ key := fun s hs =>
    (List.nodup_append.mp hnodup).2.2 s hs key List.mem_cons_self
  rw [keysBefore, h, List.takeWhile_append_of_pos (by simpa using hnew),
    List.takeWhile_cons_of_neg (by simp), List.append_nil]

theorem keys_eq_keysBefore (h : g.isKey key) :
    ∃ after, g.keys = g.keysBefore key ++ key :: after := by
  obtain ⟨before, after, hkeys⟩ := List.append_of_mem (OrderedMap.mem_keys.mpr (of_decide_eq_true h))
  exact ⟨after, by rw [keysBefore_eq hkeys]; exact hkeys⟩

theorem keysBefore_eq_of_mem {j : Symbol} (hkey : g.isKey key) (hj : j ∈ g.keysBefore key) :
    ∃ between, g.keysBefore key = g.keysBefore j ++ j :: between := by
  obtain ⟨after, hkeys⟩ := keys_eq_keysBefore hkey
  obtain ⟨before, between, hbefore⟩ := List.append_of_mem hj
  rw [hbefore, List.append_assoc, List.cons_append] at hkeys
  exact ⟨between, by rw [keysBefore_eq hkeys]; exact hbefore⟩

/-- A key that stands before another one has all keys in front of it before itself. -/
theorem keysBefore_eq_of_split {j : Symbol} {replaced todo : List Symbol} (hkey : g.isKey key)
    (hkeys : g.keysBefore key = replaced ++ j :: todo) :
    j ∈ g.keysBefore key ∧ g.keysBefore j = replaced := by
  constructor
  · rw [hkeys]
    exact List.mem_append_right _ List.mem_cons_self
  · obtain ⟨after, hall⟩ := keys_eq_keysBefore hkey
    rw [hkeys, List.append_assoc, List.cons_append] at hall
    exact keysBefore_eq hall

theorem isKey_of_mem_keysBefore {j : Symbol} (h : j ∈ g.keysBefore key) : g.isKey j :=
  decide_eq_true (OrderedMap.mem_keys.mp ((List.takeWhile_sublist _).mem h))

theorem not_mem_keysBefore_self : key ∉ g.keysBefore key := fun h => by
  simpa using List.all_eq_true.mp List.all_takeWhile key h

theorem mem_keysBefore_trans {i j : Symbol} (hkey : g.isKey key) (hj : j ∈ g.keysBefore key)
    (hi : i ∈ g.keysBefore j) : i ∈ g.keysBefore key := by
  obtain ⟨between, heq⟩ := keysBefore_eq_of_mem hkey hj
  rw [heq]
  exact List.mem_append_left _ hi

theorem mem_keysBefore_of_not_mem {j : Symbol} (hkey : g.isKey key) (hj : g.isKey j)
    (hne : j ≠ key) (h : j ∉ g.keysBefore key) : key ∈ g.keysBefore j := by
  obtain ⟨after, hkeys⟩ := keys_eq_keysBefore hkey
  have hmem : j ∈ g.keys := mem_keys.mpr hj
  rw [hkeys, List.mem_append, List.mem_cons, or_iff_right h, or_iff_right hne] at hmem
  obtain ⟨between, behind, rfl⟩ := List.append_of_mem hmem
  have hsplit : g.keys = (g.keysBefore key ++ key :: between) ++ j :: behind := by
    rw [hkeys, List.append_assoc, List.cons_append]
  rw [keysBefore_eq hsplit]
  exact List.mem_append_right _ List.mem_cons_self

/-- To prove something of every key, assume it of the keys before. -/
theorem keys_induction {motive : Symbol → Prop}
    (h : ∀ key, g.isKey key → (∀ j ∈ g.keysBefore key, motive j) → motive key)
    (key : Symbol) (hkey : g.isKey key) : motive key := by
  refine h key hkey fun j hj => keys_induction h j (isKey_of_mem_keysBefore hj)
termination_by (g.keysBefore key).length
decreasing_by
  obtain ⟨between, heq⟩ := keysBefore_eq_of_mem hkey hj
  rw [heq, List.length_append, List.length_cons]
  omega

/-- The alternatives of a key of `g`, expanded with the alternatives that the keys
before it have in `r`. -/
def expanded (g r : Grammar) (key : Symbol) : List Expression :=
  expandLeading ((g.keysBefore key).map fun j => (j, r.alternatives j)) (g.alternatives key)

/-- A primed form of a key. All that have fewer primes are symbols of the grammar or helpers
of keys before it. -/
def IsFirstPrimed (g : Grammar) (helper : Symbol → Option Symbol) (key h : Symbol) : Prop :=
  ∃ n, h = Symbol.prime^[n + 1] key ∧ ∀ m < n, Symbol.prime^[m + 1] key ∈ g.symbols ∨
    ∃ j ∈ g.keysBefore key, helper j = some (Symbol.prime^[m + 1] key)

/-- The grammar `r` is `g` rewritten without left recursion. A key that had to be
rewritten has a helper. -/
structure Rewrites (g r : Grammar) (helper : Symbol → Option Symbol) : Prop where
  start_eq : r.start = g.start
  keys_eq : r.keys = g.keys ++ g.keys.filterMap helper
  isKey_of_helper {key h : Symbol} : helper key = some h → g.isKey key
  not_mem_symbols {key h : Symbol} : helper key = some h → h ∉ g.symbols
  helper_injective {key key' h : Symbol} : helper key = some h → helper key' = some h → key = key'
  helper_primed {key h : Symbol} : helper key = some h → g.IsFirstPrimed helper key h
  alternatives_plain {key : Symbol} : g.isKey key → helper key = none →
    recursiveTails key (g.expanded r key) = [] ∧
      r.alternatives key = otherAlternatives key (g.expanded r key)
  alternatives_helped {key h : Symbol} : helper key = some h →
    recursiveTails key (g.expanded r key) ≠ [] ∧
      r.alternatives key = (otherAlternatives key (g.expanded r key)).map (·.join [h]) ∧
      r.alternatives h = repetition h (recursiveTails key (g.expanded r key))

end Grammar

namespace Elimination

variable {g : Grammar}

/-- What holds when some keys have been treated. The final bodies of the keys that
were treated before a key are still there, in front of all others. -/
structure Coherent (g : Grammar) (treated : List Symbol) (p : Progress)
    (helper : Symbol → Option Symbol) : Prop where
  done_keys : p.done.map Prod.fst = treated
  helpers_keys : p.helpers.map Prod.fst = treated.filterMap helper
  taken_eq : p.taken = g.symbols.toList ++ p.helpers.map Prod.fst
  nodup : (p.helpers.map Prod.fst).Nodup
  not_mem_symbols : ∀ h ∈ p.helpers.map Prod.fst, h ∉ g.symbols
  mem_treated {key h : Symbol} : helper key = some h → key ∈ treated
  injective {key key' h : Symbol} : helper key = some h → helper key' = some h → key = key'
  primed {key h : Symbol} : helper key = some h → g.IsFirstPrimed helper key h
  settles : ∀ key ∈ treated, ∃ earlier, earlier <+: p.done ∧
    earlier.map Prod.fst = g.keysBefore key ∧
    Settles (p.done ++ p.helpers) key (expandLeading earlier (g.alternatives key)) (helper key)

theorem coherent_start : Coherent g [] ⟨[], [], g.symbols.toList, []⟩ fun _ => none where
  done_keys := rfl
  helpers_keys := rfl
  taken_eq := (List.append_nil _).symm
  nodup := List.nodup_nil
  not_mem_symbols h hmem := by simp at hmem
  mem_treated h := by simp at h
  injective h := by simp at h
  primed h := by simp at h
  settles key hmem := by simp at hmem

variable {treated rest : List Symbol} {p : Progress} {helper : Symbol → Option Symbol}

theorem Coherent.mem_helpers (h : Coherent g treated p helper) {key s : Symbol}
    (hs : helper key = some s) : s ∈ p.helpers.map Prod.fst := by
  rw [h.helpers_keys]
  exact List.mem_filterMap.mpr ⟨key, h.mem_treated hs, hs⟩

/-- Settled keys stay settled when a key is treated that settles itself. -/
theorem Coherent.settles_snoc (h : Coherent g treated p helper) {key : Symbol}
    {body : List Expression} {helpers : List Body} {helper' : Symbol → Option Symbol}
    (hkeys : g.keys = treated ++ key :: rest) (hhelpers : ∀ b ∈ p.helpers, b ∈ helpers)
    (hsame : ∀ k ∈ treated, helper' k = helper k)
    (hown : Settles (p.done ++ [(key, body)] ++ helpers) key
      (expandLeading p.done (g.alternatives key)) (helper' key)) :
    ∀ k ∈ treated ++ [key], ∃ earlier, earlier <+: p.done ++ [(key, body)] ∧
      earlier.map Prod.fst = g.keysBefore k ∧
      Settles (p.done ++ [(key, body)] ++ helpers) k (expandLeading earlier (g.alternatives k))
        (helper' k) := by
  intro k hk
  rcases List.mem_append.mp hk with hk | hk
  · obtain ⟨earlier, hprefix, hbefore, hsettles⟩ := h.settles k hk
    refine ⟨earlier, hprefix.trans (List.prefix_append _ _), hbefore, ?_⟩
    rw [hsame k hk]
    refine hsettles.mono fun b hb => ?_
    rcases List.mem_append.mp hb with hb | hb
    · exact List.mem_append_left _ (List.mem_append_left _ hb)
    · exact List.mem_append_right _ (hhelpers b hb)
  · obtain rfl := List.mem_singleton.mp hk
    refine ⟨p.done, List.prefix_append _ _, ?_, hown⟩
    rw [h.done_keys, Grammar.keysBefore_eq hkeys]

theorem step_of_recursiveTails_eq_nil {key : Symbol} {body : List Expression}
    (h : recursiveTails key (expandLeading p.done body) = []) :
    ∃ events, step p (key, body) =
      ⟨p.done ++ [(key, otherAlternatives key (expandLeading p.done body))], p.helpers, p.taken,
        events⟩ := by
  unfold step
  simp only [h]
  exact ⟨_, rfl⟩

theorem step_of_recursiveTails_ne_nil {key new : Symbol} {body : List Expression}
    (h : recursiveTails key (expandLeading p.done body) ≠ [])
    (hnew : firstFree p.taken key.prime = new) :
    ∃ events, step p (key, body) =
      ⟨p.done ++
          [(key, (otherAlternatives key (expandLeading p.done body)).map (·.join [new]))],
        p.helpers ++ [(new, repetition new (recursiveTails key (expandLeading p.done body)))],
        p.taken ++ [new], events⟩ := by
  unfold step
  cases htails : recursiveTails key (expandLeading p.done body) with
  | nil => exact absurd htails h
  | cons tail tails =>
    simp only [htails, hnew]
    exact ⟨_, rfl⟩

theorem not_mem_of_keys_eq {key : Symbol} (hkeys : g.keys = treated ++ key :: rest) :
    key ∉ treated := by
  have hnodup := g.nodup_keys
  rw [hkeys] at hnodup
  exact fun hmem => (List.nodup_append.mp hnodup).2.2 key hmem key List.mem_cons_self rfl

theorem Coherent.keep (h : Coherent g treated p helper) {key : Symbol} {events : List Event}
    (hkeys : g.keys = treated ++ key :: rest)
    (htails : recursiveTails key (expandLeading p.done (g.alternatives key)) = []) :
    Coherent g (treated ++ [key])
      ⟨p.done ++ [(key, otherAlternatives key (expandLeading p.done (g.alternatives key)))],
        p.helpers, p.taken, events⟩ helper := by
  have hnone : helper key = none := by
    cases hh : helper key with
    | none => rfl
    | some s => exact absurd (h.mem_treated hh) (not_mem_of_keys_eq hkeys)
  refine { h with done_keys := ?_, helpers_keys := ?_, mem_treated := ?_, settles := ?_ }
  · rw [List.map_append, h.done_keys]
    rfl
  · rw [List.filterMap_append, List.filterMap_cons_none hnone, List.filterMap_nil, List.append_nil]
    exact h.helpers_keys
  · exact fun hh => List.mem_append_left _ (h.mem_treated hh)
  · refine h.settles_snoc hkeys (fun _ hb => hb) (fun _ _ => rfl) ?_
    rw [hnone]
    exact ⟨htails, by simp⟩

/-- The helper of a key that is treated now, and those of the keys before it. -/
theorem update_eq_some_iff (h : Coherent g treated p helper) {key new k s : Symbol}
    (hkey : key ∉ treated) :
    Function.update helper key (some new) k = some s ↔
      k = key ∧ s = new ∨ helper k = some s := by
  by_cases hk : k = key
  · subst hk
    rw [Function.update_self, Option.some.injEq]
    refine ⟨fun hs => Or.inl ⟨rfl, hs.symm⟩, fun hs => ?_⟩
    rcases hs with ⟨-, rfl⟩ | hs
    · rfl
    · exact absurd (h.mem_treated hs) hkey
  · rw [Function.update_of_ne hk]
    exact (or_iff_right fun hs => hk hs.1).symm

theorem Coherent.introduce (h : Coherent g treated p helper) {key new : Symbol}
    {events : List Event} (hkeys : g.keys = treated ++ key :: rest)
    (htails : recursiveTails key (expandLeading p.done (g.alternatives key)) ≠ [])
    {n : Nat} (hprimed : new = Symbol.prime^[n + 1] key) (hfree : new ∉ p.taken)
    (hpassed : ∀ m < n, Symbol.prime^[m + 1] key ∈ p.taken) :
    Coherent g (treated ++ [key])
      ⟨p.done ++ [(key,
          (otherAlternatives key (expandLeading p.done (g.alternatives key))).map (·.join [new]))],
        p.helpers ++ [(new,
          repetition new (recursiveTails key (expandLeading p.done (g.alternatives key))))],
        p.taken ++ [new], events⟩ (Function.update helper key (some new)) := by
  have hkey := not_mem_of_keys_eq hkeys
  have hupdate : ∀ {k s : Symbol}, Function.update helper key (some new) k = some s ↔
      k = key ∧ s = new ∨ helper k = some s := update_eq_some_iff h hkey
  have hsame : ∀ k ∈ treated, Function.update helper key (some new) k = helper k := by
    intro k hk
    have hne : k ≠ key := fun heq => hkey (heq ▸ hk)
    exact Function.update_of_ne hne _ _
  rw [h.taken_eq, List.mem_append, not_or, OrderedSet.mem_toList] at hfree
  have hmem : ∀ {s : Symbol}, s ∈ (p.helpers ++ [(new, repetition new
      (recursiveTails key (expandLeading p.done (g.alternatives key))))]).map Prod.fst ↔
      s ∈ p.helpers.map Prod.fst ∨ s = new := by
    intro s
    rw [List.map_append, List.mem_append]
    exact or_congr_right List.mem_singleton
  constructor
  case done_keys =>
    rw [List.map_append, h.done_keys]
    rfl
  case helpers_keys =>
    have hnew : Function.update helper key (some new) key = some new := Function.update_self ..
    rw [List.map_append, List.filterMap_append, List.filterMap_congr hsame, h.helpers_keys,
      List.filterMap_cons_some hnew, List.filterMap_nil]
    rfl
  case taken_eq =>
    rw [List.map_append, h.taken_eq, List.append_assoc]
    rfl
  case nodup =>
    rw [List.map_append, List.nodup_append]
    refine ⟨h.nodup, by simp, fun a ha b hb heq => hfree.2 ?_⟩
    rw [heq, List.mem_singleton.mp hb] at ha
    exact ha
  case not_mem_symbols =>
    intro s hs
    rcases hmem.mp hs with hs | rfl
    · exact h.not_mem_symbols s hs
    · exact hfree.1
  case mem_treated =>
    intro k s hs
    rcases hupdate.mp hs with ⟨rfl, -⟩ | hs
    · exact List.mem_append_right _ (List.mem_singleton_self _)
    · exact List.mem_append_left _ (h.mem_treated hs)
  case injective =>
    intro k k' s hs hs'
    rcases hupdate.mp hs with ⟨rfl, rfl⟩ | hk <;> rcases hupdate.mp hs' with ⟨rfl, heq⟩ | hk'
    · rfl
    · exact absurd (h.mem_helpers hk') hfree.2
    · exact absurd (heq ▸ h.mem_helpers hk) hfree.2
    · exact h.injective hk hk'
  case primed =>
    intro k s hs
    rcases hupdate.mp hs with ⟨rfl, rfl⟩ | hs
    · refine ⟨n, hprimed, fun m hm => ?_⟩
      have htaken := hpassed m hm
      rw [h.taken_eq, List.mem_append, OrderedSet.mem_toList, h.helpers_keys,
        List.mem_filterMap] at htaken
      refine htaken.imp_right fun ⟨j, hj, hjs⟩ => ⟨j, ?_, hupdate.mpr (Or.inr hjs)⟩
      rwa [Grammar.keysBefore_eq hkeys]
    · obtain ⟨n, heq, hpassed⟩ := h.primed hs
      refine ⟨n, heq, fun m hm => (hpassed m hm).imp_right fun ⟨j, hj, hjs⟩ => ⟨j, hj, ?_⟩⟩
      exact hupdate.mpr (Or.inr hjs)
  case settles =>
    refine h.settles_snoc hkeys (fun _ hb => List.mem_append_left _ hb) hsame ?_
    rw [Function.update_self]
    exact ⟨htails, by simp, by simp⟩

theorem Coherent.step (h : Coherent g treated p helper) {key : Symbol}
    (hkeys : g.keys = treated ++ key :: rest) :
    ∃ helper', Coherent g (treated ++ [key]) (step p (key, g.alternatives key)) helper' := by
  by_cases htails : recursiveTails key (expandLeading p.done (g.alternatives key)) = []
  · obtain ⟨events, hstep⟩ := step_of_recursiveTails_eq_nil htails
    exact ⟨helper, hstep ▸ h.keep hkeys htails⟩
  · obtain ⟨events, hstep⟩ := step_of_recursiveTails_ne_nil htails rfl
    obtain ⟨n, _, hprime, hfree, hpassed⟩ := firstFree_spec p.taken key.prime
    rw [← hprime] at hfree
    exact ⟨_, hstep ▸ h.introduce hkeys htails hprime hfree hpassed⟩

theorem coherent_foldl (hcoherent : Coherent g treated p helper)
    (hkeys : g.keys = treated ++ rest) :
    ∃ helper', Coherent g g.keys
      ((rest.map fun key => (key, g.alternatives key)).foldl step p) helper' := by
  induction rest generalizing treated p helper with
  | nil =>
    rw [List.append_nil] at hkeys
    exact ⟨helper, hkeys ▸ hcoherent⟩
  | cons key rest ih =>
    obtain ⟨helper', hnext⟩ := hcoherent.step hkeys
    exact ih hnext (by rw [hkeys, List.append_assoc]; rfl)

open Grammar

theorem exists_coherent_run (g : Grammar) : ∃ helper, Coherent g g.keys (run g) helper := by
  unfold run
  rw [entries_eq]
  exact coherent_foldl coherent_start rfl

/-! ## The result -/

/-- The grammar with all bodies of a state. -/
def Progress.apply (p : Progress) (g : Grammar) : Grammar :=
  { g with rules := g.rules.insertMany (p.done ++ p.helpers) }

variable {key s : Symbol} {body : List Expression}

theorem Coherent.isKey_of_helper (h : Coherent g g.keys p helper) (hs : helper key = some s) :
    g.isKey key := mem_keys.mp (h.mem_treated hs)

theorem Coherent.nodup_bodies (h : Coherent g g.keys p helper) :
    ((p.done ++ p.helpers).map Prod.fst).Nodup := by
  rw [List.map_append, h.done_keys, List.nodup_append]
  refine ⟨g.nodup_keys, h.nodup, fun a ha b hb heq => h.not_mem_symbols b hb ?_⟩
  rw [← heq]
  exact mem_symbols_of_isKey (mem_keys.mp ha)

/-- The keys stay where they are, and the helpers are new. -/
theorem Coherent.keys_apply (h : Coherent g g.keys p helper) :
    (p.apply g).keys = g.keys ++ g.keys.filterMap helper := by
  have hold : ∀ s ∈ g.keys, ¬ decide (s ∉ g.rules) := fun s hs => by
    simp [OrderedMap.mem_keys.mp hs]
  have hnew : ∀ s ∈ p.helpers.map Prod.fst, decide (s ∉ g.rules) := fun s hs => by
    refine decide_eq_true fun hmem => h.not_mem_symbols s hs ?_
    exact mem_symbols_of_isKey (decide_eq_true hmem)
  have hkeys : (p.apply g).keys = g.keys ++
      ((p.done ++ p.helpers).map Prod.fst).filter fun s => s ∉ g.rules :=
    OrderedMap.keys_insertMany h.nodup_bodies
  rw [hkeys, List.map_append, h.done_keys, List.filter_append, List.filter_eq_nil_iff.mpr hold,
    List.nil_append, List.filter_eq_self.mpr hnew, h.helpers_keys]

theorem Coherent.alternatives_apply (h : Coherent g g.keys p helper)
    (hmem : (s, body) ∈ p.done ++ p.helpers) : (p.apply g).alternatives s = body := by
  unfold Progress.apply
  rw [alternatives, OrderedMap.get?_insertMany_of_mem h.nodup_bodies hmem, Option.getD_some]

/-- The bodies with which a key has been expanded are the alternatives in the result. -/
theorem Coherent.settles_expanded (h : Coherent g g.keys p helper) (hkey : g.isKey key) :
    Settles (p.done ++ p.helpers) key (g.expanded (p.apply g) key) (helper key) := by
  obtain ⟨earlier, hprefix, hkeys, hsettles⟩ := h.settles key (mem_keys.mpr hkey)
  have hearlier : earlier = (earlier.map Prod.fst).map fun j => (j, (p.apply g).alternatives j) := by
    rw [List.map_map]
    refine (List.map_id _).symm.trans (List.map_congr_left fun b hb => ?_)
    have hb : (b.1, b.2) ∈ p.done := hprefix.subset hb
    simp only [Function.comp, h.alternatives_apply (List.mem_append_left _ hb), id]
  rw [hearlier, hkeys] at hsettles
  exact hsettles

theorem Coherent.rewrites (h : Coherent g g.keys p helper) : Rewrites g (p.apply g) helper where
  start_eq := rfl
  keys_eq := h.keys_apply
  isKey_of_helper := h.isKey_of_helper
  not_mem_symbols hs := h.not_mem_symbols _ (h.mem_helpers hs)
  helper_injective := h.injective
  helper_primed := h.primed
  alternatives_plain hkey hnone := by
    have hsettles := h.settles_expanded hkey
    rw [hnone] at hsettles
    exact ⟨hsettles.1, h.alternatives_apply hsettles.2⟩
  alternatives_helped hsome := by
    have hsettles := h.settles_expanded (h.isKey_of_helper hsome)
    rw [hsome] at hsettles
    exact ⟨hsettles.1, h.alternatives_apply hsettles.2.1, h.alternatives_apply hsettles.2.2⟩

end Elimination

namespace Grammar

theorem withoutLeftRecursion_eq_self {g : Grammar} (hrec : ¬ g.isLeftRecursive) :
    g.withoutLeftRecursion = g := if_neg hrec

/-- A left-recursive grammar is rewritten. -/
theorem exists_rewrites {g : Grammar} (hrec : g.isLeftRecursive) :
    ∃ helper, Rewrites g g.withoutLeftRecursion helper := by
  obtain ⟨helper, h⟩ := exists_coherent_run g
  have hresult : g.withoutLeftRecursion = (run g).apply g := if_pos hrec
  rw [hresult]
  exact ⟨helper, h.rewrites⟩

variable {helper : Symbol → Option Symbol} {key h s : Symbol}

theorem Rewrites.helper_ne_epsilon (hr : Rewrites g r helper) (hh : helper key = some h) :
    h ≠ .epsilon := by
  obtain ⟨n, rfl, _⟩ := hr.helper_primed hh
  intro heq
  have hlength := length_prime_iterate key (n + 1)
  rw [heq] at hlength
  simp [Symbol.epsilon] at hlength

theorem Rewrites.isKey_iff (hr : Rewrites g r helper) (s : Symbol) :
    r.isKey s ↔ g.isKey s ∨ ∃ key, helper key = some s := by
  rw [← mem_keys, hr.keys_eq, List.mem_append, List.mem_filterMap, mem_keys]
  refine or_congr_right (exists_congr fun key => and_iff_right_of_imp fun hh => ?_)
  exact mem_keys.mpr (hr.isKey_of_helper hh)

theorem Rewrites.isKey_helper (hr : Rewrites g r helper) (hh : helper key = some h) :
    r.isKey h := (hr.isKey_iff h).mpr (Or.inr ⟨key, hh⟩)

theorem Rewrites.isKey_of_isKey (hr : Rewrites g r helper) (hkey : g.isKey key) : r.isKey key :=
  (hr.isKey_iff key).mpr (Or.inl hkey)

theorem Rewrites.helper_ne_of_mem_symbols (hr : Rewrites g r helper) (hs : s ∈ g.symbols)
    (key : Symbol) : helper key ≠ some s := fun hh => hr.not_mem_symbols hh hs

end Grammar
end LL1
