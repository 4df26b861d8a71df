import LL1.Proofs.Machine.States
import LL1.Proofs.Recognition

/-!
# Runs come to an end

An expansion may raise the stack, but it lowers its cost, which is bounded by the height
of the stack. So only so many moves are made before a token is read or a move is
missing, and the tokens are used up in the end.
-/

namespace LL1

open Relation

variable {g : Grammar} {t : Table} {c d : Config}

namespace Viable

theorem next (h : Viable g c) (hg : g.IsTextual) (ht : t.Predictive g) : Viable g (c.next t) := by
  cases hadvance : c.advance t with
  | none =>
    rw [Config.next_of_advance_eq_none hadvance]
    exact h
  | some d =>
    rw [Config.next_of_advance_eq_some hadvance]
    exact h.of_moves hg ht (Table.moves_of_advance hadvance)

theorem iterate_next (h : Viable g c) (hg : g.IsTextual) (ht : t.Predictive g) (count : Nat) :
    Viable g ((Config.next t)^[count] c) := by
  induction count with
  | zero => exact h
  | succ count ih =>
    rw [Function.iterate_succ_apply']
    exact ih.next hg ht

/-- Moves that read no token are paid for by the cost of the stack. -/
theorem cost_iterate_add_le (h : Viable g c) (hg : g.IsTextual) (ht : t.Predictive g)
    (hacyclic : ¬ ∃ s, TransGen g.Exposes s s) {count : Nat}
    (hsilent : ∀ j < count, ¬ ((Config.next t)^[j] c).readsToken ∧
      (((Config.next t)^[j] c).advance t).isSome) :
    g.cost t.width ((Config.next t)^[count] c).stack + count ≤ g.cost t.width c.stack := by
  induction count with
  | zero => exact Nat.le_refl _
  | succ count ih =>
    have hbefore := ih fun j hj => hsilent j (Nat.lt_succ_of_lt hj)
    obtain ⟨hread, hsome⟩ := hsilent count (Nat.lt_succ_self count)
    obtain ⟨d, hadvance⟩ := Option.isSome_iff_exists.mp hsome
    have hlt := (h.iterate_next hg ht count).cost_lt_of_moves hg ht hacyclic
      (Table.moves_of_advance hadvance) hread
    rw [Function.iterate_succ_apply', Config.next_of_advance_eq_some hadvance]
    omega

/-- The height of the stack bounds how many moves read no token. -/
theorem silent_le (h : Viable g c) (hg : g.IsTextual) (ht : t.Predictive g)
    (hacyclic : ¬ ∃ s, TransGen g.Exposes s s) {count : Nat}
    (hsilent : ∀ j < count, ¬ ((Config.next t)^[j] c).readsToken ∧
      (((Config.next t)^[j] c).advance t).isSome) :
    count ≤ c.stack.length * t.expansionLimit := by
  have hcost := h.cost_iterate_add_le hg ht hacyclic hsilent
  have hlimit : g.cost t.width c.stack ≤ c.stack.length * t.expansionLimit :=
    Table.cost_le_of_length_le ht.length_keys_le (Nat.le_refl _)
  omega

/-- A move reads a token or lowers the cost of the stack, so some state has no move. -/
theorem exists_advance_eq_none {c : Config} (h : Viable g c) (hg : g.IsTextual)
    (ht : t.Predictive g) (hacyclic : ¬ ∃ s, TransGen g.Exposes s s) :
    ∃ count, ((Config.next t)^[count] c).advance t = none := by
  cases hadvance : c.advance t with
  | none => exact ⟨0, hadvance⟩
  | some d =>
    have hmoves := Table.moves_of_advance hadvance
    obtain ⟨count, hstop⟩ := (h.of_moves hg ht hmoves).exists_advance_eq_none hg ht hacyclic
    refine ⟨count + 1, ?_⟩
    rw [Function.iterate_succ_apply, Config.next_of_advance_eq_some hadvance]
    exact hstop
termination_by (c.unread.length, g.cost t.width c.stack)
decreasing_by
  -- Reading a token shortens the rest. Any other move leaves it and lowers the cost.
  have hlength := Config.length_unread_of_advance hadvance
  by_cases hread : c.readsToken = true
  · rw [hread, Bool.toNat_true] at hlength
    exact Prod.Lex.left _ _ (by omega)
  · have hlt := h.cost_lt_of_moves hg ht hacyclic hmoves hread
    rw [Bool.not_eq_true] at hread
    rw [hread, Bool.toNat_false] at hlength
    have heq : d.unread.length = c.unread.length := hlength
    rw [heq]
    exact Prod.Lex.right _ hlt

end Viable

namespace Run

/-- A run of a table is not cut off, and the machine comes from the tokens to a state
without a move. The moves that read no token are bounded, from each state that it passes
through, by the height of the stack there. -/
theorem ofTokens_halts (hg : g.IsPrepared) (htable : g.table = .ok t) (tokens : List String) :
    (ofTokens t tokens).ending ≠ .endless ∧
    (∃ count, ((Config.next t)^[count] (Config.ofTokens t tokens)).advance t = none) ∧
    ∀ i count, (∀ j < count,
        ¬ ((Config.next t)^[i + j] (Config.ofTokens t tokens)).readsToken ∧
          (((Config.next t)^[i + j] (Config.ofTokens t tokens)).advance t).isSome) →
      count ≤ ((Config.next t)^[i] (Config.ofTokens t tokens)).stack.length *
        t.expansionLimit := by
  have htextual := hg.isTextual
  have ht := Table.predictive_of_table htextual.not_isKey_epsilon htable
  have hacyclic := Grammar.not_exists_cycle_of_table htextual.not_isKey_epsilon htable
  have hviable := viable_ofTokens ht tokens
  refine ⟨(htextual.ofTokens_spec htable tokens).1, ?_, fun i count hsilent => ?_⟩
  · exact hviable.exists_advance_eq_none htextual ht hacyclic
  · refine (hviable.iterate_next htextual ht i).silent_le htextual ht hacyclic fun j hj => ?_
    rw [← Function.iterate_add_apply, Nat.add_comm]
    exact hsilent j hj

/-- Two expansions come before the first token of a product is read. -/
theorem ofTokens_halts_sums : ∃ t, Source.sums.withoutLeftRecursion.table = .ok t ∧
    (ofTokens t ["n", "*", "+"]).ending ≠ .endless ∧
    (∃ count, ((Config.next t)^[count] (Config.ofTokens t ["n", "*", "+"])).advance t = none) ∧
    2 ≤ 1 * t.expansionLimit := by
  have hread : Bnf.read Source.sumsText = .ok Source.sums := by decide +kernel
  have hsilent : (Source.sums.withoutLeftRecursion.table.map fun t =>
      decide (∀ j < 2,
        ¬ ((Config.next t)^[0 + j] (Config.ofTokens t ["n", "*", "+"])).readsToken ∧
          (((Config.next t)^[0 + j] (Config.ofTokens t ["n", "*", "+"])).advance t).isSome)) =
      .ok true := by
    decide +kernel
  obtain ⟨t, htable, hsilent⟩ := map_eq_ok_iff.mp hsilent
  have hhalts := ofTokens_halts (.eliminated (.read hread)) htable ["n", "*", "+"]
  exact ⟨t, htable, hhalts.1, hhalts.2.1, hhalts.2.2 0 2 (of_decide_eq_true hsilent)⟩

end Run
end LL1
