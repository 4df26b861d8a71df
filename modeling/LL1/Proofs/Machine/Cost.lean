import LL1.Machine
import LL1.Proofs.Exposure
import Mathlib

/-!
# The cost of a stack

Until the next token is read, only the symbols of a stack up to the first one that does
not vanish are derived. An expansion replaces a key by symbols of which those that are
derived in turn are exposed by the key. If no key exposes itself in a chain, each of
them leads to fewer keys than the replaced one, so a power of the width of the rules
with that number as its exponent pays for all of them.
-/

namespace LL1
namespace Grammar

open Relation

variable {g : Grammar} {s t : Symbol} {e a b stack : List Symbol} {n width : Nat}

open Classical in
/-- The keys that a chain of exposed keys leads to, the key itself included. -/
noncomputable def keysFrom (g : Grammar) (s : Symbol) : Finset Symbol :=
  g.keys.toFinset.filter fun t => ReflTransGen g.Exposes s t

open Classical in
theorem mem_keysFrom : t ∈ g.keysFrom s ↔ g.isKey t ∧ ReflTransGen g.Exposes s t := by
  unfold keysFrom
  rw [Finset.mem_filter, List.mem_toFinset, mem_keys]

theorem mem_keysFrom_self (h : g.isKey s) : s ∈ g.keysFrom s := mem_keysFrom.mpr ⟨h, .refl⟩

noncomputable def rank (g : Grammar) (s : Symbol) : Nat := (g.keysFrom s).card

theorem rank_le (g : Grammar) (s : Symbol) : g.rank s ≤ g.keys.length := by
  have hsub : g.keysFrom s ⊆ g.keys.toFinset := fun t ht =>
    List.mem_toFinset.mpr (mem_keys.mpr (mem_keysFrom.mp ht).1)
  exact (Finset.card_le_card hsub).trans g.keys.toFinset_card_le

theorem rank_of_not_isKey (h : ¬ g.isKey s) : g.rank s = 0 := by
  refine Finset.card_eq_zero.mpr (Finset.eq_empty_of_forall_notMem fun t ht => ?_)
  obtain ⟨hkey, hst⟩ := mem_keysFrom.mp ht
  rcases ReflTransGen.cases_head hst with rfl | ⟨u, hsu, _⟩
  · exact h hkey
  · exact h hsu.isKey_left

theorem rank_pos (h : g.isKey s) : 0 < g.rank s :=
  Finset.card_pos.mpr ⟨s, mem_keysFrom_self h⟩

/-- What a key exposes does not lead back to it. -/
theorem rank_lt (hacyclic : ¬ ∃ s, TransGen g.Exposes s s) (h : g.Exposes s t) :
    g.rank t < g.rank s := by
  have hsub : g.keysFrom t ⊆ g.keysFrom s := by
    intro u hu
    obtain ⟨hkey, htu⟩ := mem_keysFrom.mp hu
    exact mem_keysFrom.mpr ⟨hkey, ReflTransGen.head h htu⟩
  have hback : s ∉ g.keysFrom t := fun hs =>
    hacyclic ⟨s, TransGen.head' h (mem_keysFrom.mp hs).2⟩
  apply Finset.card_lt_card
  exact (Finset.ssubset_iff_of_subset hsub).mpr ⟨s, mem_keysFrom_self h.isKey_left, hback⟩

open Classical in
/-- Bounds the moves that derive a stack until a token is read. -/
noncomputable def cost (g : Grammar) (width : Nat) : List Symbol → Nat
  | [] => 0
  | s :: stack => (width + 1) ^ g.rank s + if g.Vanishes [s] then cost g width stack else 0

theorem cost_cons_pos (g : Grammar) (width : Nat) (s : Symbol) (stack : List Symbol) :
    0 < g.cost width (s :: stack) := by
  have hpos : 0 < (width + 1) ^ g.rank s := Nat.pow_pos (Nat.succ_pos width)
  unfold cost
  omega

open Classical in
theorem cost_append : g.cost width (a ++ b) =
    g.cost width a + if g.Vanishes a then g.cost width b else 0 := by
  induction a with
  | nil => simp [cost]
  | cons s a ih =>
    show (width + 1) ^ g.rank s + (if g.Vanishes [s] then g.cost width (a ++ b) else 0) =
      (width + 1) ^ g.rank s + (if g.Vanishes [s] then g.cost width a else 0) + _
    by_cases hs : g.Vanishes [s]
    · rw [if_pos hs, if_pos hs, ih, vanishes_cons, and_iff_right hs, Nat.add_assoc]
    · rw [if_neg hs, if_neg hs, if_neg fun h => hs (vanishes_cons.mp h).1]

/-- Only the exposed symbols of a sequence count. -/
theorem cost_le (h : ∀ t, g.Exposed e t → g.rank t ≤ n) :
    g.cost width e ≤ e.length * (width + 1) ^ n := by
  induction e with
  | nil => simp [cost]
  | cons s e ih =>
    have hs : g.rank s ≤ n := by
      by_cases hkey : g.isKey s
      · exact h s (exposed_cons_iff.mpr (Or.inl ⟨rfl, hkey⟩))
      · rw [rank_of_not_isKey hkey]
        exact Nat.zero_le n
    have hpow : (width + 1) ^ g.rank s ≤ (width + 1) ^ n :=
      Nat.pow_le_pow_right (Nat.succ_pos width) hs
    rw [List.length_cons, Nat.add_mul, Nat.one_mul]
    unfold cost
    by_cases hvanishes : g.Vanishes [s]
    · have hrest := ih fun t ht => h t (exposed_cons_iff.mpr (Or.inr ⟨hvanishes, ht⟩))
      rw [if_pos hvanishes]
      omega
    · rw [if_neg hvanishes]
      omega

/-- One power more pays for as many symbols as the width allows. -/
theorem width_mul_pow_lt (width : Nat) (hn : 0 < n) :
    width * (width + 1) ^ (n - 1) < (width + 1) ^ n := by
  have hunit : 0 < (width + 1) ^ (n - 1) := Nat.pow_pos (Nat.succ_pos width)
  calc width * (width + 1) ^ (n - 1)
      < (width + 1) * (width + 1) ^ (n - 1) := Nat.mul_lt_mul_of_pos_right (Nat.lt_succ_self _) hunit
    _ = (width + 1) ^ (n - 1 + 1) := by rw [Nat.pow_succ, Nat.mul_comm]
    _ = (width + 1) ^ n := by rw [Nat.sub_add_cancel hn]

/-- An expansion lowers the cost. -/
theorem cost_lt_of_mem_alternatives (hacyclic : ¬ ∃ s, TransGen g.Exposes s s)
    (he : e ∈ g.alternatives s) (hwidth : e.length ≤ width) :
    g.cost width (Expression.withoutEpsilon e ++ stack) < g.cost width (s :: stack) := by
  have hexposed : ∀ t, g.Exposed (Expression.withoutEpsilon e) t → g.rank t ≤ g.rank s - 1 := by
    intro t ht
    have hlt := rank_lt hacyclic ⟨e, he, ht.of_withoutEpsilon⟩
    omega
  have hpaid : g.cost width (Expression.withoutEpsilon e) < (width + 1) ^ g.rank s :=
    calc g.cost width (Expression.withoutEpsilon e)
        ≤ (Expression.withoutEpsilon e).length * (width + 1) ^ (g.rank s - 1) := cost_le hexposed
      _ ≤ width * (width + 1) ^ (g.rank s - 1) :=
          Nat.mul_le_mul_right _ ((List.length_filter_le _ e).trans hwidth)
      _ < (width + 1) ^ g.rank s :=
          width_mul_pow_lt width (rank_pos (isKey_of_mem_alternatives he))
  rw [cost_append, vanishes_withoutEpsilon_iff]
  show _ < (width + 1) ^ g.rank s + _
  by_cases hvanishes : g.Vanishes e
  · rw [if_pos hvanishes, if_pos (vanishes_of_mem_alternatives he hvanishes)]
    omega
  · rw [if_neg hvanishes]
    omega

end Grammar

namespace Table

variable {t : Table} {key lookahead : Symbol} {rule : Rule} {g : Grammar} {stack : List Symbol}

theorem right_length_le_width (h : t.get? key lookahead = some rule) :
    rule.right.length ≤ t.width := by
  have hmem : rule ∈ t.cells.values :=
    List.mem_map.mpr ⟨_, OrderedMap.mem_entries_iff.mpr h, rfl⟩
  exact List.le_max?_getD_of_mem (List.mem_map_of_mem hmem)

/-- The limit of a stack symbol pays for every symbol. -/
theorem cost_le_of_length_le (hkeys : g.keys.length ≤ t.keys.size) {height : Nat}
    (hheight : stack.length ≤ height) : g.cost t.width stack ≤ height * t.expansionLimit := by
  refine (Grammar.cost_le fun s _ => (g.rank_le s).trans hkeys).trans ?_
  exact Nat.mul_le_mul_right _ hheight

end Table
end LL1
