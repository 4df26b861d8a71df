import LL1.Proofs.Machine.Moves

/-!
# Runs decide derivability

The limits of a run are never reached: the cost of a stack bounds the moves until a
token is read, and each symbol on the stack adds no more to it than the limit of one
symbol. So a run goes on until its stack is empty or a move is missing, and its answer
is whether the tokens can be derived.
-/

namespace LL1

open Relation

variable {g : Grammar} {t : Table} {c d : Config} {r : Run} {next : Nat → Config → Run}

namespace Run

/-- The run ends, and accepts exactly if the unread tokens are derived from the stack. -/
structure Decides (g : Grammar) (c : Config) (r : Run) : Prop where
  ending_ne : r.ending ≠ .endless
  isAccepting_iff : r.isAccepting ↔ g.Derives c.stack c.unread

theorem Decides.after (h : Decides g d r) (move : Move)
    (hiff : g.Derives c.stack c.unread ↔ g.Derives d.stack d.unread) :
    Decides g c (r.after move) :=
  ⟨h.ending_ne, h.isAccepting_iff.trans hiff.symm⟩

theorem decides_finished (hc : Viable g c) (hstack : c.stack = []) :
    Decides g c ⟨[], .finished c.unread.length c.overrun⟩ := by
  refine ⟨nofun, ?_⟩
  rw [hstack, Grammar.derives_nil_iff, hc.overrun_eq, ← List.length_eq_zero_iff]
  unfold isAccepting
  rw [decide_eq_true_eq, Ending.finished.injEq]
  exact and_iff_left rfl

theorem decides_stuck (h : ¬ g.Derives c.stack c.unread) : Decides g c ⟨[], .stuck⟩ :=
  ⟨nofun, iff_of_false nofun h⟩

/-! ## Until a token is read -/

variable {top : Symbol} {stack : List Symbol} {height limit : Nat}

theorem untilToken_of_stack_eq_nil (h : c.stack = []) :
    untilToken t next height limit c = ⟨[], .finished c.unread.length c.overrun⟩ := by
  unfold untilToken
  simp only [h]

theorem untilToken_of_advance_eq_none (h : c.stack = top :: stack) (hadvance : c.advance t = none) :
    untilToken t next height (limit + 1) c =
      .after ⟨top, c.lookahead, t.action top c.lookahead⟩ ⟨[], .stuck⟩ := by
  unfold untilToken
  simp only [h, hadvance]

theorem untilToken_of_advance_eq_some (h : c.stack = top :: stack)
    (hadvance : c.advance t = some d) :
    untilToken t next height (limit + 1) c =
      .after ⟨top, c.lookahead, t.action top c.lookahead⟩
        (if c.readsToken then next (height + (t.action top c.lookahead).growth) d
        else untilToken t next (height + (t.action top c.lookahead).growth) limit d) := by
  conv_lhs => unfold untilToken
  simp only [h, hadvance]

/-- A limit that pays for the stack lasts until the next token is read. -/
theorem decides_untilToken (hg : g.IsTextual) (ht : t.Predictive g)
    (hacyclic : ¬ ∃ s, TransGen g.Exposes s s) {m : Nat}
    (hnext : ∀ height d, Viable g d → d.stack.length ≤ height → d.unread.length + 1 = m →
      Decides g d (next height d))
    (limit : Nat) (hc : Viable g c) (hheight : c.stack.length ≤ height)
    (hunread : c.unread.length = m) (hlimit : g.cost t.width c.stack ≤ limit) :
    Decides g c (untilToken t next height limit c) := by
  induction limit generalizing c height with
  | zero =>
    cases hstack : c.stack with
    | nil =>
      rw [untilToken_of_stack_eq_nil hstack]
      exact decides_finished hc hstack
    | cons top stack =>
      have hpos := g.cost_cons_pos t.width top stack
      rw [hstack] at hlimit
      omega
  | succ limit ih =>
    cases hstack : c.stack with
    | nil =>
      rw [untilToken_of_stack_eq_nil hstack]
      exact decides_finished hc hstack
    | cons top stack =>
      cases hadvance : c.advance t with
      | none =>
        rw [untilToken_of_advance_eq_none hstack hadvance]
        exact (decides_stuck (hc.not_derives_of_stuck hg ht hstack hadvance)).after _ Iff.rfl
      | some d =>
        have hmoves := Table.moves_of_advance hadvance
        have hd := hc.of_moves hg ht hmoves
        have hgrown := hmoves.length_stack_le hstack
        have hlength := Config.length_unread_of_advance hadvance
        rw [untilToken_of_advance_eq_some hstack hadvance]
        refine Decides.after ?_ _ (hc.derives_iff_of_moves hg ht hmoves)
        by_cases hread : c.readsToken = true
        · rw [hread, Bool.toNat_true] at hlength
          rw [if_pos hread]
          exact hnext _ d hd (by omega) (by omega)
        · have hcost := hc.cost_lt_of_moves hg ht hacyclic hmoves hread
          rw [if_neg hread]
          rw [Bool.not_eq_true] at hread
          rw [hread, Bool.toNat_false] at hlength
          exact ih hd (by omega) (by omega) (by omega)

/-- The number of tokens bounds how often a token is read. -/
theorem decides_within (hg : g.IsTextual) (ht : t.Predictive g)
    (hacyclic : ¬ ∃ s, TransGen g.Exposes s s) (m : Nat) (hc : Viable g c)
    (hheight : c.stack.length ≤ height) (hunread : c.unread.length = m) :
    Decides g c (within t t.expansionLimit m height c) := by
  have hlimit := fun {stack : List Symbol} {height : Nat} (h : stack.length ≤ height) =>
    Table.cost_le_of_length_le (t := t) (g := g) ht.length_keys_le h
  induction m generalizing c height with
  | zero =>
    unfold within
    refine decides_untilToken hg ht hacyclic (fun _ d _ _ hd => ?_) _ hc hheight hunread
      (hlimit hheight)
    omega
  | succ m ih =>
    unfold within
    refine decides_untilToken hg ht hacyclic (fun height d hd hh hm => ?_) _ hc hheight hunread
      (hlimit hheight)
    exact ih hd hh (by omega)

theorem viable_ofTokens (ht : t.Predictive g) (tokens : List String) :
    Viable g (Config.ofTokens t tokens) where
  overrun_eq := rfl
  isToken s hs := by
    obtain ⟨literal, _, rfl⟩ := List.mem_map.mp hs
    exact ⟨literal, rfl⟩
  derives := ⟨[], by rw [← ht.start_eq]; exact .refl _⟩

theorem decides_ofTokens (hg : g.IsTextual) (ht : t.Predictive g)
    (hacyclic : ¬ ∃ s, TransGen g.Exposes s s) {tokens : List String} (htokens : tokens ≠ []) :
    Decides g (Config.ofTokens t tokens) (ofTokens t tokens) := by
  have hwithin := decides_within hg ht hacyclic tokens.length (viable_ofTokens ht tokens)
    (Nat.le_refl 1) (List.length_map _)
  cases tokens with
  | nil => exact absurd rfl htokens
  | cons token tokens => exact hwithin

/-- A run ends, and it accepts the tokens that are derived if there are any. -/
theorem ofTokens_spec (hg : g.IsTextual) (ht : t.Predictive g)
    (hacyclic : ¬ ∃ s, TransGen g.Exposes s s) (tokens : List String) :
    (ofTokens t tokens).ending ≠ .endless ∧
      ((ofTokens t tokens).isAccepting ↔
        tokens ≠ [] ∧ g.Derives [g.start] (tokens.map Symbol.terminal)) := by
  by_cases htokens : tokens = []
  · rw [htokens]
    exact ⟨nofun, iff_of_false nofun fun h => h.1 rfl⟩
  · have hdecides := decides_ofTokens hg ht hacyclic htokens
    rw [and_iff_right htokens, ← ht.start_eq]
    exact ⟨hdecides.ending_ne, hdecides.isAccepting_iff⟩

end Run
end LL1
