import LL1.Grammar

/-!
# Left recursion

A key leads to another one if that is the first symbol of one of its
alternatives. A grammar is left recursive if a key leads back to itself in one or
more steps. Leading symbols that derive the empty string are not looked past.

Every key is the origin of a search of its own. The search takes a key from a
stack and looks at what it leads to. The origin among that ends the search. Any
other key is pushed when it is met for the first time, so the keys that have not
been met bound what is still to be searched.
-/

namespace LL1
namespace Grammar

/-- The keys that a symbol leads to in one step. -/
def leading (g : Grammar) (s : Symbol) : List Symbol :=
  (g.alternatives s).filterMap fun e => e.head?.filter g.isKey

theorem isKey_of_mem_leading {g : Grammar} {s t : Symbol} (h : t ∈ g.leading s) : g.isKey t := by
  obtain ⟨e, _, ht⟩ := List.mem_filterMap.mp h
  exact (Option.filter_eq_some_iff.mp ht).2

/-- The state of a search. -/
structure Search where
  /-- The keys that are still to be looked at, the next one first. -/
  stack : List Symbol
  /-- The keys that have been pushed. -/
  met : OrderedSet Symbol

namespace Search

/-- The origin is not met yet, so that it is found if the search comes back to it. -/
def start (origin : Symbol) : Search := ⟨[origin], ∅⟩

def meet (search : Search) (s : Symbol) : Search :=
  if s ∈ search.met then search else ⟨s :: search.stack, search.met.insert s⟩

/-- Bounds how many keys the search still takes from the stack. -/
def pending (g : Grammar) (search : Search) : Nat :=
  search.stack.length + (g.keys.filter fun key => key ∉ search.met).length

variable {g : Grammar}

/-- A key that is met goes from the keys that have not been met to the stack. -/
theorem pending_meet_le {s : Symbol} (search : Search) (hs : g.isKey s) :
    (search.meet s).pending g ≤ search.pending g := by
  unfold meet
  by_cases hmet : s ∈ search.met
  · simp only [if_pos hmet, Nat.le_refl]
  · have hmem : s ∈ g.keys.filter fun key => key ∉ search.met := by
      have hkey : s ∈ g.keys := OrderedMap.mem_keys.mpr (of_decide_eq_true hs)
      exact List.mem_filter.mpr ⟨hkey, decide_eq_true hmet⟩
    have hfilter : (g.keys.filter fun key => key ∉ search.met.insert s) =
        (g.keys.filter fun key => key ∉ search.met).filter fun key => key ≠ s := by
      rw [List.filter_filter]
      refine List.filter_congr fun key _ => ?_
      simp only [OrderedSet.mem_insert, not_or, Bool.decide_and]
      exact Bool.and_comm _ _
    have hlt : (g.keys.filter fun key => key ∉ search.met.insert s).length <
        (g.keys.filter fun key => key ∉ search.met).length := by
      rw [hfilter]
      exact List.length_filter_lt_length_iff_exists.mpr ⟨s, hmem, by simp⟩
    rw [if_neg hmet]
    simp only [pending, List.length_cons]
    omega

theorem pending_foldl_meet_le {ts : List Symbol} (search : Search) (hts : ∀ t ∈ ts, g.isKey t) :
    (ts.foldl meet search).pending g ≤ search.pending g := by
  induction ts generalizing search with
  | nil => exact Nat.le_refl _
  | cons t ts ih =>
    have hrest := ih (search.meet t) fun s hs => hts s (List.mem_cons_of_mem t hs)
    have hmeet := pending_meet_le search (hts t List.mem_cons_self)
    exact Nat.le_trans hrest hmeet

theorem pending_lt (s : Symbol) (stack : List Symbol) (met : OrderedSet Symbol) :
    ((g.leading s).foldl meet ⟨stack, met⟩).pending g < pending g ⟨s :: stack, met⟩ := by
  have hkeys : ∀ t ∈ g.leading s, g.isKey t := fun _ => isKey_of_mem_leading
  have hle := pending_foldl_meet_le ⟨stack, met⟩ hkeys
  simp only [pending, List.length_cons] at hle ⊢
  omega

/-- Whether the search comes back to its origin. -/
def returns (g : Grammar) (origin : Symbol) : Search → Bool
  | ⟨[], _⟩ => false
  | ⟨s :: stack, met⟩ =>
    if origin ∈ g.leading s then true
    else returns g origin ((g.leading s).foldl meet ⟨stack, met⟩)
termination_by search => search.pending g
decreasing_by exact pending_lt s stack met

end Search

/-- Whether a key leads back to itself. -/
def leadsBack (g : Grammar) (origin : Symbol) : Bool := (Search.start origin).returns g origin

def isLeftRecursive (g : Grammar) : Bool := g.keys.any g.leadsBack

end Grammar
end LL1
