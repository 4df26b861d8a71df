import LL1.LeftRecursion
import LL1.Proofs.Grammar
import Mathlib.Logic.Relation

/-!
# Leading chains

A grammar is left recursive exactly if some key leads back to itself in one or more
steps. All that is on the stack of a search can be reached from its origin. A key that
has been taken from the stack leads to keys that have been met, and not to the origin.
So when the stack is empty, the keys that have been met are closed under leading, and
none of them leads back to the origin.

Each turn takes a key from the stack, so a search ends after at most one turn more than
there are keys.
-/

namespace LL1

/-- A point from which every chain ends lies on no cycle. -/
theorem not_transGen_self_of_acc {α : Type} {r : α → α → Prop} {a : α}
    (h : Acc (fun y x => r x y) a) : ¬ Relation.TransGen r a a := by
  induction h with
  | intro a _ ih =>
    intro hcycle
    obtain ⟨b, hab, hba⟩ := Relation.TransGen.head'_iff.mp hcycle
    exact ih b hab (Relation.TransGen.tail' hba hab)

namespace Grammar

open Relation

variable {g : Grammar} {s t origin : Symbol}

/-- The key `t` is the first symbol of an alternative of `s`. -/
def LeadsTo (g : Grammar) (s t : Symbol) : Prop := t ∈ g.leading s

theorem leadsTo_iff : g.LeadsTo s t ↔ g.isKey t ∧ ∃ rest, t :: rest ∈ g.alternatives s := by
  unfold LeadsTo leading
  rw [List.mem_filterMap]
  constructor
  · rintro ⟨e, he, ht⟩
    obtain ⟨hhead, hkey⟩ := Option.filter_eq_some_iff.mp ht
    obtain ⟨rest, rfl⟩ := List.head?_eq_some_iff.mp hhead
    exact ⟨hkey, rest, he⟩
  · rintro ⟨hkey, rest, he⟩
    exact ⟨t :: rest, he, Option.filter_eq_some_iff.mpr ⟨rfl, hkey⟩⟩

theorem LeadsTo.isKey (h : g.LeadsTo s t) : g.isKey t := isKey_of_mem_leading h

namespace Search

/-! ## What one turn does -/

variable {search : Search} {ts stack : List Symbol} {met : OrderedSet Symbol}

theorem mem_met_meet : s ∈ (search.meet t).met ↔ s ∈ search.met ∨ s = t := by
  unfold meet
  by_cases ht : t ∈ search.met
  · rw [if_pos ht]
    exact (or_iff_left_of_imp fun h => h ▸ ht).symm
  · rw [if_neg ht, OrderedSet.mem_insert]

theorem mem_stack_meet : s ∈ (search.meet t).stack ↔
    s ∈ search.stack ∨ (s = t ∧ s ∉ search.met) := by
  unfold meet
  by_cases ht : t ∈ search.met
  · rw [if_pos ht]
    exact (or_iff_left fun h => h.2 (h.1 ▸ ht)).symm
  · rw [if_neg ht, List.mem_cons, or_comm]
    exact or_congr_right (iff_self_and.mpr fun h => h ▸ ht)

theorem mem_met_foldl : s ∈ (ts.foldl meet search).met ↔ s ∈ search.met ∨ s ∈ ts := by
  induction ts generalizing search with
  | nil => simp
  | cons t ts ih => rw [List.foldl_cons, ih, mem_met_meet, or_assoc, List.mem_cons]

/-- What is met for the first time is pushed. -/
theorem mem_stack_foldl : s ∈ (ts.foldl meet search).stack ↔
    s ∈ search.stack ∨ (s ∈ ts ∧ s ∉ search.met) := by
  induction ts generalizing search with
  | nil => simp
  | cons t ts ih =>
    rw [List.foldl_cons, ih, mem_stack_meet, mem_met_meet, List.mem_cons]
    by_cases hst : s = t
    · simp [hst]
    · simp [hst]

/-! ## What the search finds -/

/-- The state of a search from an origin that has not been found again. -/
structure Explores (g : Grammar) (origin : Symbol) (search : Search) : Prop where
  reached : ∀ s ∈ search.stack, ReflTransGen g.LeadsTo origin s
  closed : ∀ s, s = origin ∨ s ∈ search.met →
    s ∈ search.stack ∨ ∀ t, g.LeadsTo s t → t ≠ origin ∧ t ∈ search.met

theorem explores_start : Explores g origin (start origin) where
  reached s hs := by
    rw [List.mem_singleton.mp hs]
  closed s hs := by
    have hs : s = origin := hs.resolve_right OrderedSet.not_mem_empty
    exact Or.inl (List.mem_singleton.mpr hs)

theorem Explores.turn (h : Explores g origin ⟨s :: stack, met⟩) (hback : origin ∉ g.leading s) :
    Explores g origin ((g.leading s).foldl meet ⟨stack, met⟩) where
  reached t ht := by
    rcases mem_stack_foldl.mp ht with hmem | hnew
    · exact h.reached t (List.mem_cons_of_mem s hmem)
    · exact (h.reached s List.mem_cons_self).tail hnew.1
  closed u hu := by
    have hknown : (u = origin ∨ u ∈ met) ∨ u ∈ g.leading s := by
      rw [mem_met_foldl, ← or_assoc] at hu
      exact hu
    by_cases hold : u = origin ∨ u ∈ met
    · rcases h.closed u hold with hmem | hclosed
      · rcases List.mem_cons.mp hmem with rfl | hmem
        · refine Or.inr fun t ht => ⟨fun heq => hback (heq ▸ ht), ?_⟩
          exact mem_met_foldl.mpr (Or.inr ht)
        · exact Or.inl (mem_stack_foldl.mpr (Or.inl hmem))
      · refine Or.inr fun t ht => ⟨(hclosed t ht).1, ?_⟩
        exact mem_met_foldl.mpr (Or.inl (hclosed t ht).2)
    · have hnew : u ∉ met := fun hmet => hold (Or.inr hmet)
      exact Or.inl (mem_stack_foldl.mpr (Or.inr ⟨hknown.resolve_left hold, hnew⟩))

/-- When nothing is left to be looked at, no chain comes back. -/
theorem Explores.not_transGen_self (h : Explores g origin ⟨[], met⟩) :
    ¬ TransGen g.LeadsTo origin origin := by
  have hclosed : ∀ s, s = origin ∨ s ∈ met → ∀ t, g.LeadsTo s t → t ≠ origin ∧ t ∈ met :=
    fun s hs => (h.closed s hs).resolve_left List.not_mem_nil
  have hreach : ∀ s, ReflTransGen g.LeadsTo origin s → s = origin ∨ s ∈ met := by
    intro s hs
    induction hs with
    | refl => exact Or.inl rfl
    | tail _ hstep ih => exact Or.inr (hclosed _ ih _ hstep).2
  intro hcycle
  obtain ⟨s, hs, hback⟩ := TransGen.tail'_iff.mp hcycle
  exact (hclosed s (hreach s hs) origin hback).1 rfl

theorem Explores.returns_iff (h : Explores g origin search) :
    search.returns g origin ↔ TransGen g.LeadsTo origin origin := by
  fun_induction returns g origin search with
  | case1 met => exact iff_of_false Bool.false_ne_true h.not_transGen_self
  | case2 s stack met hback =>
    exact iff_of_true rfl (TransGen.tail' (h.reached s List.mem_cons_self) hback)
  | case3 s stack met hback ih => exact ih (h.turn hback)

/-! ## How the search ends -/

/-- The search ends after some turns with a verdict. -/
inductive Ends (g : Grammar) (origin : Symbol) : Search → Nat → Bool → Prop
  | exhausted {met : OrderedSet Symbol} : Ends g origin ⟨[], met⟩ 0 false
  | found {s : Symbol} {stack : List Symbol} {met : OrderedSet Symbol}
    (h : origin ∈ g.leading s) : Ends g origin ⟨s :: stack, met⟩ 1 true
  | turn {s : Symbol} {stack : List Symbol} {met : OrderedSet Symbol} {turns : Nat} {verdict : Bool}
    (h : origin ∉ g.leading s)
    (hrest : Ends g origin ((g.leading s).foldl meet ⟨stack, met⟩) turns verdict) :
    Ends g origin ⟨s :: stack, met⟩ (turns + 1) verdict

theorem exists_ends (g : Grammar) (origin : Symbol) (search : Search) :
    ∃ turns ≤ search.pending g, Ends g origin search turns (search.returns g origin) := by
  fun_induction returns g origin search with
  | case1 met => exact ⟨0, Nat.zero_le _, .exhausted⟩
  | case2 s stack met hback =>
    have hpending : 1 ≤ pending g ⟨s :: stack, met⟩ := by
      simp only [pending, List.length_cons]
      omega
    exact ⟨1, hpending, .found hback⟩
  | case3 s stack met hback ih =>
    obtain ⟨turns, hturns, hends⟩ := ih
    have hlt := pending_lt (g := g) s stack met
    exact ⟨turns + 1, by omega, .turn hback hends⟩

theorem pending_start_le (g : Grammar) (origin : Symbol) :
    (start origin).pending g ≤ g.keys.length + 1 := by
  have hle := List.length_filter_le (fun key => decide (key ∉ (start origin).met)) g.keys
  have hstack : (start origin).stack.length = 1 := rfl
  unfold pending
  omega

end Search

theorem leadsBack_iff : g.leadsBack origin ↔ TransGen g.LeadsTo origin origin :=
  Search.explores_start.returns_iff

theorem isLeftRecursive_iff : g.isLeftRecursive ↔ ∃ s, TransGen g.LeadsTo s s := by
  unfold isLeftRecursive
  rw [List.any_eq_true]
  constructor
  · intro h
    obtain ⟨s, _, hs⟩ := h
    exact ⟨s, leadsBack_iff.mp hs⟩
  · intro h
    obtain ⟨s, hs⟩ := h
    obtain ⟨t, _, hts⟩ := TransGen.tail'_iff.mp hs
    exact ⟨s, mem_keys.mpr hts.isKey, leadsBack_iff.mpr hs⟩

/-- Each search ends, after at most one turn more than there are keys, and some search
comes back to its origin if and only if a key is related to itself by chains of leading
keys. -/
theorem isLeftRecursive_iff_exists_chain (g : Grammar) :
    (∀ origin, ∃ turns ≤ g.keys.length + 1,
        Search.Ends g origin (.start origin) turns (g.leadsBack origin)) ∧
      (g.isLeftRecursive ↔ ∃ key, g.isKey key ∧
        TransGen (fun s t => g.isKey t ∧ ∃ rest, t :: rest ∈ g.alternatives s) key key) := by
  constructor
  · intro origin
    obtain ⟨turns, hturns, hends⟩ := Search.exists_ends g origin (.start origin)
    exact ⟨turns, Nat.le_trans hturns (Search.pending_start_le g origin), hends⟩
  · have hrelation : g.LeadsTo = fun s t => g.isKey t ∧ ∃ rest, t :: rest ∈ g.alternatives s := by
      funext s t
      exact propext leadsTo_iff
    rw [isLeftRecursive_iff, ← hrelation]
    refine exists_congr fun s => (and_iff_right_of_imp fun hs => ?_).symm
    obtain ⟨t, _, hts⟩ := TransGen.tail'_iff.mp hs
    exact hts.isKey

/-- The start symbol leads to a cycle that it is not on. -/
example : (fun g : Grammar => (g.leadsBack ⟨"S"⟩, g.isLeftRecursive))
    (((Grammar.ofStart ⟨"S"⟩).add ⟨"S"⟩ [[⟨"A"⟩]]).add ⟨"A"⟩ [[⟨"A"⟩, ⟨"x"⟩]]) =
    (false, true) := by
  decide +kernel

end Grammar
end LL1
