import LL1.Proofs.Leftmost
import LL1.Proofs.Machine.States
import LL1.Proofs.Recognition

/-!
# What the trace of a run derives

The rules of the expansions that a run has made lead, in a leftmost derivation, from the
start symbol to the tokens that it has read and what its stack holds behind them. Every
move keeps this: reading a token only moves it from the stack to what has been read, and
an expansion replaces the top of the stack, in front of which there are only tokens.
-/

namespace LL1

open Grammar

variable {g : Grammar} {t : Table} {c d : Config} {r : Run} {move : Move} {rules : List Rule}
  {tokens : List Symbol}

/-- The rule of an expansion. -/
def Move.rule? (move : Move) : Option Rule :=
  match move.action with
  | .expand rule => some rule
  | _ => none

theorem Move.action_of_rule?_eq_some {rule : Rule} (h : move.rule? = some rule) :
    move.action = .expand rule := by
  unfold Move.rule? at h
  split at h
  · rename_i haction
    rw [haction, Option.some.inj h]
  · cases h

namespace Run

/-- The run as far as some of its moves. -/
def upTo (r : Run) (count : Nat) : Run := { r with moves := r.moves.take count }

theorem trace_eq (r : Run) : r.trace = r.moves.filterMap Move.rule? := rfl

/-- The rules of a trace come from cells. -/
theorem Passes.exists_cell {rule : Rule} (h : Passes t c r) (hrule : rule ∈ r.trace) :
    ∃ key lookahead, t.get? key lookahead = some rule := by
  rw [trace_eq] at hrule
  obtain ⟨move, hmove, hexpands⟩ := List.mem_filterMap.mp hrule
  obtain ⟨i, hi, hget⟩ := List.getElem_of_mem hmove
  have hat : r.moves[i]? = some move := by rw [List.getElem?_eq_getElem hi, hget]
  rw [h.getElem?_moves hi] at hat
  obtain ⟨top, _, rfl⟩ := Option.map_eq_some_iff.mp hat
  obtain ⟨_, _, hcell⟩ := Table.action_eq_expand_iff.mp (Move.action_of_rule?_eq_some hexpands)
  exact ⟨_, _, hcell⟩

theorem upTo_length (r : Run) : r.upTo r.moves.length = r := by
  rw [upTo, List.take_length]

theorem trace_upTo_zero (r : Run) : (r.upTo 0).trace = [] := rfl

theorem trace_after_upTo (r : Run) (move : Move) (count : Nat) :
    ((r.after move).upTo (count + 1)).trace = move.rule?.toList ++ (r.upTo count).trace := by
  rw [trace_eq, trace_eq]
  show (move :: r.moves.take count).filterMap Move.rule? = _
  cases hrule : move.rule? with
  | none => rw [List.filterMap_cons_none hrule]; rfl
  | some rule => rw [List.filterMap_cons_some hrule]; rfl

end Run

/-- The move that a run is stuck with expands nothing. -/
theorem Config.rule?_eq_none_of_advance_eq_none (hmove : c.move? t = some move)
    (h : c.advance t = none) : move.rule? = none := by
  obtain ⟨top, hhead, rfl⟩ := Option.map_eq_some_iff.mp hmove
  obtain ⟨stack, hstack⟩ := List.head?_eq_some_iff.mp hhead
  obtain ⟨_, unread, overrun⟩ := c
  obtain rfl := hstack
  obtain ⟨_, hexpand⟩ := Table.action_ne_of_advance_eq_none h
  unfold Move.rule?
  split
  · rename_i rule haction
    exact absurd haction (hexpand rule)
  · rfl

/-- The rules derive the tokens that have been read, followed by the stack. Nothing but
tokens has been read. -/
structure Config.IsDerivedBy (g : Grammar) (tokens : List Symbol) (rules : List Rule)
    (c : Config) : Prop where
  overrun_eq : c.overrun = 0
  leftmostBy : ∃ consumed, tokens = consumed ++ c.unread ∧
    g.LeftmostBy rules [g.start] (consumed ++ c.stack)

namespace Config.IsDerivedBy

theorem viable (h : c.IsDerivedBy g tokens rules)
    (htokens : ∀ s ∈ tokens, ∃ literal, s = .terminal literal) : Viable g c := by
  obtain ⟨hoverrun, consumed, rfl, hderives⟩ := h
  exact ⟨hoverrun, fun s hs => htokens s (List.mem_append_right _ hs), consumed, hderives.derives⟩

/-- A move keeps what is derived, with the rule of the move if it is an expansion. -/
theorem of_advance (h : c.IsDerivedBy g tokens rules) (hg : g.IsTextual) (htable : g.table = .ok t)
    (htokens : ∀ s ∈ tokens, ∃ literal, s = .terminal literal) (hmove : c.move? t = some move)
    (hadvance : c.advance t = some d) :
    d.IsDerivedBy g tokens (rules ++ move.rule?.toList) := by
  have hviable := h.viable htokens
  obtain ⟨hoverrun, consumed, rfl, hderives⟩ := h
  cases Table.moves_of_advance hadvance with
  | read token stack unread overrun =>
    have haction : t.action token token = .consume := Table.action_eq_consume_iff.mpr rfl
    obtain rfl := Option.some.inj (hmove.symm.trans (Config.move?_of_action rfl haction))
    refine ⟨hoverrun, consumed ++ [token], List.append_cons consumed token unread, ?_⟩
    show g.LeftmostBy (rules ++ []) [g.start] (consumed ++ [token] ++ stack)
    rw [List.append_nil, ← List.append_cons]
    exact hderives
  | overrun stack overrun => exact absurd List.mem_cons_self (hviable.endMark_not_mem hg)
  | @expand top rule stack unread overrun haction =>
    obtain rfl := Option.some.inj (hmove.symm.trans (Config.move?_of_action rfl haction))
    obtain ⟨_, _, hget⟩ := Table.action_eq_expand_iff.mp haction
    obtain rfl := Table.left_eq_of_table htable hget
    have hconsumed : ∀ s ∈ consumed, ¬ g.isKey s := by
      intro s hs
      obtain ⟨literal, rfl⟩ := htokens s (List.mem_append_left _ hs)
      exact hg.not_isKey_terminal literal
    have hright : rule.right ∈ g.alternatives rule.left :=
      (Table.predictive_of_table hg.not_isKey_epsilon htable).mem_alternatives hget
    exact ⟨hoverrun, consumed, rfl, hderives.snoc (.replace consumed stack hconsumed hright)⟩

theorem at_start (h : c.IsDerivedBy g tokens rules) (r : Run) :
    ((Config.next t)^[0] c).IsDerivedBy g tokens (rules ++ (r.upTo 0).trace) := by
  rw [Run.trace_upTo_zero, List.append_nil]
  exact h

/-- What is derived where a run starts is derived, with the rules of its moves so far, in
every state that it passes through. -/
theorem of_passes (h : c.IsDerivedBy g tokens rules) (hg : g.IsTextual) (htable : g.table = .ok t)
    (htokens : ∀ s ∈ tokens, ∃ literal, s = .terminal literal) (hpasses : Run.Passes t c r)
    {i : Nat} (hi : i ≤ r.moves.length) :
    ((Config.next t)^[i] c).IsDerivedBy g tokens (rules ++ (r.upTo i).trace) := by
  induction hpasses generalizing rules i with
  | finished hstack =>
    obtain rfl : i = 0 := Nat.le_zero.mp hi
    exact h.at_start _
  | @stuck c move hmove hnone =>
    rcases Nat.le_one_iff_eq_zero_or_eq_one.mp hi with rfl | rfl
    · exact h.at_start _
    · -- The last move changes neither the state nor the rules.
      show (c.next t).IsDerivedBy g tokens (rules ++ (Run.after move ⟨[], .stuck⟩ |>.upTo 1).trace)
      rw [Config.next_of_advance_eq_none hnone, Run.trace_after_upTo,
        rule?_eq_none_of_advance_eq_none hmove hnone]
      exact h.at_start (t := t) ⟨[], .stuck⟩
  | @after c d move r hmove hadvance _ ih =>
    cases i with
    | zero => exact h.at_start _
    | succ i =>
      have hd := h.of_advance hg htable htokens hmove hadvance
      rw [Function.iterate_succ_apply, Config.next_of_advance_eq_some hadvance,
        Run.trace_after_upTo, ← List.append_assoc]
      exact ih hd (Nat.le_of_succ_le_succ hi)

end Config.IsDerivedBy

theorem isDerivedBy_ofTokens (ht : t.Predictive g) (tokens : List String) :
    (Config.ofTokens t tokens).IsDerivedBy g (tokens.map .terminal) [] := by
  refine ⟨rfl, [], rfl, ?_⟩
  show g.LeftmostBy [] [g.start] [t.start]
  rw [ht.start_eq]
  exact .nil [g.start]

namespace Run

/-- The run of a table goes through the states that the machine reaches from the tokens,
and in each of them the rules so far are a leftmost derivation of the tokens that have
been read, followed by the stack. If the run accepts, its rules are a leftmost derivation
of the tokens, and there is no other one. -/
theorem trace_isLeftmost (hg : g.IsPrepared) (htable : g.table = .ok t) {tokens : List String}
    (htokens : tokens ≠ []) :
    (∀ i < (ofTokens t tokens).moves.length, (ofTokens t tokens).moves[i]? =
      ((Config.next t)^[i] (Config.ofTokens t tokens)).move? t) ∧
    ((Config.next t)^[(ofTokens t tokens).moves.length] (Config.ofTokens t tokens)).advance t =
      none ∧
    (∀ i ≤ (ofTokens t tokens).moves.length,
      ((Config.next t)^[i] (Config.ofTokens t tokens)).IsDerivedBy g (tokens.map .terminal)
        ((ofTokens t tokens).upTo i).trace) ∧
    ((ofTokens t tokens).isAccepting →
      g.LeftmostBy (ofTokens t tokens).trace [g.start] (tokens.map .terminal) ∧
      ∀ rules, g.LeftmostBy rules [g.start] (tokens.map .terminal) →
        rules = (ofTokens t tokens).trace) := by
  have htextual := hg.isTextual
  have ht := Table.predictive_of_table htextual.not_isKey_epsilon htable
  have hpasses := passes_ofTokens htokens (htextual.ofTokens_spec htable tokens).1
  have hterminal : ∀ s ∈ tokens.map Symbol.terminal, ∃ literal, s = .terminal literal := by
    intro s hs
    obtain ⟨literal, _, rfl⟩ := List.mem_map.mp hs
    exact ⟨literal, rfl⟩
  have hderived : ∀ i ≤ (ofTokens t tokens).moves.length,
      ((Config.next t)^[i] (Config.ofTokens t tokens)).IsDerivedBy g (tokens.map .terminal)
        ((ofTokens t tokens).upTo i).trace := fun i hi =>
    (isDerivedBy_ofTokens ht tokens).of_passes htextual htable hterminal hpasses hi
  refine ⟨fun i => hpasses.getElem?_moves, hpasses.advance_eq_none, hderived, fun haccepts => ?_⟩
  obtain ⟨hstack, hunread⟩ := hpasses.of_isAccepting haccepts
  obtain ⟨_, consumed, hconsumed, hleftmost⟩ := hderived _ (Nat.le_refl _)
  rw [hunread, List.append_nil] at hconsumed
  rw [hstack, List.append_nil, ← hconsumed, upTo_length] at hleftmost
  refine ⟨hleftmost, fun rules hrules => ?_⟩
  refine ht.leftmostBy_unique htextual.not_isKey_epsilon (.refl [g.start]) ?_ hrules hleftmost
  intro s hs
  obtain ⟨literal, rfl⟩ := hterminal s hs
  exact ⟨htextual.not_isKey_terminal literal, Symbol.terminal_ne_epsilon literal⟩

/-- The one leftmost derivation of a sum, in which helpers vanish under two lookaheads. -/
theorem derivation_of_sum_unique :
    ∃ sumRules : List Rule,
      sumRules.map Rule.display = ["<E> -> <T> <E'>", "<T> -> \"n\" <T'>", "<T'> -> ε",
        "<E'> -> \"+\" <T> <E'>", "<T> -> \"n\" <T'>", "<T'> -> ε", "<E'> -> ε"] ∧
      Source.sums.withoutLeftRecursion.LeftmostBy sumRules
        [Source.sums.withoutLeftRecursion.start] (["n", "+", "n"].map .terminal) ∧
      ∀ rules, Source.sums.withoutLeftRecursion.LeftmostBy rules
        [Source.sums.withoutLeftRecursion.start] (["n", "+", "n"].map .terminal) →
          rules = sumRules := by
  have hread : Bnf.read Source.sumsText = .ok Source.sums := by decide +kernel
  have hrun : (Source.sums.withoutLeftRecursion.table.map fun t =>
      ((ofTokens t ["n", "+", "n"]).isAccepting,
        (ofTokens t ["n", "+", "n"]).trace.map Rule.display)) =
      .ok (true, ["<E> -> <T> <E'>", "<T> -> \"n\" <T'>", "<T'> -> ε",
        "<E'> -> \"+\" <T> <E'>", "<T> -> \"n\" <T'>", "<T'> -> ε", "<E'> -> ε"]) := by
    decide +kernel
  obtain ⟨t, htable, hrun⟩ := map_eq_ok_iff.mp hrun
  obtain ⟨haccepts, hdisplay⟩ := Prod.mk.inj hrun
  exact ⟨_, hdisplay, (trace_isLeftmost (.eliminated (.read hread)) htable
    (List.cons_ne_nil "n" ["+", "n"])).2.2.2 haccepts⟩

end Run
end LL1
