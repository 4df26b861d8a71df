import LL1.Proofs.Machine.Acceptance

/-!
# States of a run

A run lists its moves. The states that it passes through are the iterates of one
function, which makes the next move and leaves a state without a move as it is. If a run
is not cut off by its limits, it holds exactly the moves of these states, and the last of
them has no move that goes on.
-/

namespace LL1

variable {t : Table} {c d : Config} {r : Run} {move : Move}

namespace Config

/-- The state behind the next move. A state without one stays as it is. -/
def next (t : Table) (c : Config) : Config := (c.advance t).getD c

/-- What the machine does next. It does nothing once the stack is empty. -/
def move? (t : Table) (c : Config) : Option Move :=
  c.stack.head?.map fun top => ⟨top, c.lookahead, t.action top c.lookahead⟩

theorem next_of_advance_eq_some (h : c.advance t = some d) : c.next t = d := by
  rw [next, h, Option.getD_some]

theorem next_of_advance_eq_none (h : c.advance t = none) : c.next t = c := by
  rw [next, h, Option.getD_none]

theorem advance_of_stack_eq_nil (h : c.stack = []) : c.advance t = none := by
  simp only [advance, h]

theorem move?_of_action {top : Symbol} {stack : List Symbol} {action : Action}
    (h : c.stack = top :: stack) (haction : t.action top c.lookahead = action) :
    c.move? t = some ⟨top, c.lookahead, action⟩ := by
  rw [move?, h, ← haction]
  rfl

end Config

namespace Run

/-- The run makes the moves of the states from one on, and ends as the last of them does. -/
inductive Passes (t : Table) : Config → Run → Prop
  | finished {c : Config} (h : c.stack = []) :
    Passes t c ⟨[], .finished c.unread.length c.overrun⟩
  | stuck {c : Config} {move : Move} (hmove : c.move? t = some move) (h : c.advance t = none) :
    Passes t c ⟨[move], .stuck⟩
  | after {c d : Config} {move : Move} {r : Run} (hmove : c.move? t = some move)
    (h : c.advance t = some d) (hr : Passes t d r) : Passes t c (r.after move)

/-! ## A run that is not cut off -/

theorem passes_untilToken {next : Nat → Config → Run}
    (hnext : ∀ height d, (next height d).ending ≠ .endless → Passes t d (next height d))
    {height limit : Nat} (h : (untilToken t next height limit c).ending ≠ .endless) :
    Passes t c (untilToken t next height limit c) := by
  induction limit generalizing c height with
  | zero =>
    cases hstack : c.stack with
    | nil =>
      rw [untilToken_of_stack_eq_nil hstack]
      exact .finished hstack
    | cons top stack =>
      unfold untilToken at h
      simp only [hstack] at h
      exact absurd rfl h
  | succ limit ih =>
    cases hstack : c.stack with
    | nil =>
      rw [untilToken_of_stack_eq_nil hstack]
      exact .finished hstack
    | cons top stack =>
      have hmove := Config.move?_of_action hstack (Eq.refl (t.action top c.lookahead))
      cases hadvance : c.advance t with
      | none =>
        rw [untilToken_of_advance_eq_none hstack hadvance]
        exact .stuck hmove hadvance
      | some d =>
        rw [untilToken_of_advance_eq_some hstack hadvance] at h ⊢
        refine .after hmove hadvance ?_
        by_cases hread : c.readsToken = true
        · rw [if_pos hread] at h ⊢
          exact hnext _ d h
        · rw [if_neg hread] at h ⊢
          exact ih h

theorem passes_within {perSymbol m height : Nat}
    (h : (within t perSymbol m height c).ending ≠ .endless) :
    Passes t c (within t perSymbol m height c) := by
  induction m generalizing c height with
  | zero => exact passes_untilToken (fun _ _ hcut => absurd rfl hcut) h
  | succ m ih => exact passes_untilToken (fun _ _ => ih) h

theorem passes_ofTokens {tokens : List String} (htokens : tokens ≠ [])
    (h : (ofTokens t tokens).ending ≠ .endless) :
    Passes t (Config.ofTokens t tokens) (ofTokens t tokens) := by
  cases tokens with
  | nil => exact absurd rfl htokens
  | cons token tokens => exact passes_within h

/-! ## Its moves and its end -/

theorem Passes.getElem?_moves (h : Passes t c r) {i : Nat} (hi : i < r.moves.length) :
    r.moves[i]? = ((Config.next t)^[i] c).move? t := by
  induction h generalizing i with
  | finished hstack => exact absurd hi (Nat.not_lt_zero i)
  | stuck hmove hnone =>
    obtain rfl : i = 0 := Nat.lt_one_iff.mp hi
    exact hmove.symm
  | @after c d move r hmove hadvance _ ih =>
    cases i with
    | zero => exact hmove.symm
    | succ i =>
      rw [Function.iterate_succ_apply, Config.next_of_advance_eq_some hadvance]
      exact ih (Nat.lt_of_succ_lt_succ hi)

theorem Passes.advance_eq_none (h : Passes t c r) :
    ((Config.next t)^[r.moves.length] c).advance t = none := by
  induction h with
  | finished hstack => exact Config.advance_of_stack_eq_nil hstack
  | @stuck c move hmove hnone =>
    show (c.next t).advance t = none
    rw [Config.next_of_advance_eq_none hnone, hnone]
  | @after c d move r hmove hadvance _ ih =>
    show ((Config.next t)^[r.moves.length + 1] c).advance t = none
    rw [Function.iterate_succ_apply, Config.next_of_advance_eq_some hadvance]
    exact ih

/-- A run that accepts ends with nothing left to derive and nothing left to read. -/
theorem Passes.of_isAccepting (h : Passes t c r) (haccepts : r.isAccepting) :
    ((Config.next t)^[r.moves.length] c).stack = [] ∧
      ((Config.next t)^[r.moves.length] c).unread = [] := by
  induction h with
  | finished hstack =>
    have hending := of_decide_eq_true haccepts
    obtain ⟨hunread, _⟩ := Ending.finished.inj hending
    exact ⟨hstack, List.length_eq_zero_iff.mp hunread⟩
  | stuck _ _ => exact absurd (of_decide_eq_true haccepts) nofun
  | @after c d move r hmove hadvance _ ih =>
    show ((Config.next t)^[r.moves.length + 1] c).stack = [] ∧
      ((Config.next t)^[r.moves.length + 1] c).unread = []
    rw [Function.iterate_succ_apply, Config.next_of_advance_eq_some hadvance]
    exact ih haccepts

end Run
end LL1
