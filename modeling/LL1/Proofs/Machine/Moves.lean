import LL1.Proofs.Bnf.Shape
import LL1.Proofs.Machine.Cost
import LL1.Proofs.Table

/-!
# Moves

A run over tokens derives what its stack holds. In all states that it passes through,
the stack stands at the end of a form that is derived from the start symbol. Then the
rule under the lookahead is the only one that can still derive the unread tokens, so a
move neither gains nor loses a derivation of them, and a state without a move has none.
-/

namespace LL1

open Relation

variable {g : Grammar} {t : Table} {top lookahead s : Symbol} {stack unread : List Symbol}
  {rule : Rule} {c d : Config} {n : Nat}

namespace Table

theorem action_eq_expand_iff :
    t.action top lookahead = .expand rule ↔
      top ≠ lookahead ∧ t.isRow top ∧ t.get? top lookahead = some rule := by
  unfold action
  by_cases heq : top = lookahead
  · rw [if_pos heq]
    exact iff_of_false nofun fun h => h.1 heq
  · rw [if_neg heq, and_iff_right heq]
    by_cases hrow : t.isRow top
    · rw [if_pos hrow, and_iff_right hrow]
      cases t.get? top lookahead with
      | none => exact iff_of_false nofun nofun
      | some found => rw [Action.expand.injEq, Option.some_inj]
    · rw [if_neg hrow]
      exact iff_of_false nofun fun h => hrow h.1

/-- The moves of the machine. -/
inductive Moves (t : Table) : Config → Config → Prop
  | read (token : Symbol) (stack unread : List Symbol) (overrun : Nat) :
    Moves t ⟨token :: stack, token :: unread, overrun⟩ ⟨stack, unread, overrun⟩
  | overrun (stack : List Symbol) (overrun : Nat) :
    Moves t ⟨.endMark :: stack, [], overrun⟩ ⟨stack, [], overrun + 1⟩
  | expand {top : Symbol} {rule : Rule} (stack unread : List Symbol) (overrun : Nat)
    (h : t.action top (unread.head?.getD .endMark) = .expand rule) :
    Moves t ⟨top :: stack, unread, overrun⟩ ⟨rule.right.withoutEpsilon ++ stack, unread, overrun⟩

theorem moves_of_advance (h : c.advance t = some d) : t.Moves c d := by
  obtain ⟨stack, unread, overrun⟩ := c
  cases stack with
  | nil => exact nomatch h
  | cons top stack =>
    unfold Config.advance at h
    cases haction : t.action top (Config.lookahead ⟨top :: stack, unread, overrun⟩) with
    | consume =>
      have htop := action_eq_consume_iff.mp haction
      simp only [haction] at h
      cases unread with
      | nil =>
        obtain rfl := Option.some.inj h
        obtain rfl : top = .endMark := htop
        exact .overrun stack overrun
      | cons token unread =>
        obtain rfl := Option.some.inj h
        obtain rfl : top = token := htop
        exact .read top stack unread overrun
    | expand rule =>
      simp only [haction] at h
      obtain rfl := Option.some.inj h
      exact .expand stack unread overrun haction
    | unexpected => simp [haction] at h
    | unpredicted => simp [haction] at h

/-- Without a move, the top is neither consumed nor expanded. -/
theorem action_ne_of_advance_eq_none (h : Config.advance t ⟨top :: stack, unread, n⟩ = none) :
    t.action top (unread.head?.getD .endMark) ≠ .consume ∧
      ∀ rule, t.action top (unread.head?.getD .endMark) ≠ .expand rule := by
  unfold Config.advance Config.lookahead at h
  constructor
  · intro haction
    simp only [haction] at h
    cases unread with
    | nil => exact nomatch h
    | cons token unread => exact nomatch h
  · intro rule haction
    simp only [haction] at h
    exact nomatch h

theorem Moves.length_stack_le (h : t.Moves c d) (hstack : c.stack = top :: stack) :
    d.stack.length ≤ c.stack.length + (t.action top c.lookahead).growth := by
  cases h with
  | read token stack unread overrun =>
    show stack.length ≤ stack.length + 1 + _
    omega
  | overrun stack overrun =>
    show stack.length ≤ stack.length + 1 + _
    omega
  | @expand key rule stack unread overrun haction =>
    obtain ⟨rfl, _⟩ := List.cons_eq_cons.mp hstack
    have hgrowth : (t.action key (Config.lookahead ⟨key :: stack, unread, overrun⟩)).growth =
        rule.right.length := congrArg Action.growth haction
    have hlength : rule.right.withoutEpsilon.length ≤ rule.right.length :=
      List.length_filter_le _ _
    rw [hgrowth, List.length_append, List.length_cons]
    omega

end Table

/-! ## States that a run passes through -/

/-- A state behind tokens with which the stack makes up a form that is derived from the
start symbol. Nothing has been consumed behind the last token. -/
structure Viable (g : Grammar) (c : Config) : Prop where
  overrun_eq : c.overrun = 0
  isToken : ∀ s ∈ c.unread, ∃ literal, s = .terminal literal
  derives : ∃ consumed, g.Derives [g.start] (consumed ++ c.stack)

namespace Grammar.IsTextual

/-- The end mark is not derived. -/
theorem endMark_not_mem (hg : g.IsTextual) {form : List Symbol}
    (h : g.Derives [g.start] form) : .endMark ∉ form := by
  intro hmem
  rcases mem_occurring_of_derives h hmem with hstart | hoccurs
  · exact (hg.isBracketed hg.isKey_start).ne_endMark (List.mem_singleton.mp hstart).symm
  · exact hg.endMark_not_mem_symbols (mem_symbols_iff.mpr (Or.inr hoccurs))

end Grammar.IsTextual

namespace Viable

open Grammar

theorem not_isKey (h : Viable g c) (hg : g.IsTextual) (hs : s ∈ c.unread) : ¬ g.isKey s := by
  obtain ⟨literal, rfl⟩ := h.isToken s hs
  exact hg.not_isKey_terminal literal

theorem ne_epsilon (h : Viable g c) (hs : s ∈ c.unread) : s ≠ .epsilon := by
  obtain ⟨literal, rfl⟩ := h.isToken s hs
  exact Symbol.terminal_ne_epsilon literal

theorem endMark_not_mem (h : Viable g c) (hg : g.IsTextual) : .endMark ∉ c.stack := by
  obtain ⟨consumed, hderives⟩ := h.derives
  exact fun hmem => hg.endMark_not_mem hderives (List.mem_append_right _ hmem)

/-- If a key is on top, the table knows the alternative that derives the unread tokens. -/
theorem exists_rule (h : Viable g ⟨top :: stack, unread, n⟩) (hg : g.IsTextual)
    (ht : t.Predictive g) (hkey : g.isKey top) (hderives : g.Derives (top :: stack) unread) :
    ∃ e, t.get? top (unread.head?.getD .endMark) = some ⟨top, e⟩ ∧
      g.Derives (Expression.withoutEpsilon e ++ stack) unread := by
  obtain ⟨u, v, rfl, hu, hv⟩ := derives_cons_iff.mp hderives
  rcases derives_singleton_iff.mp hu with rfl | ⟨e, he, heu⟩
  · have hmem : top ∈ [top] ++ v := List.mem_append_left _ (List.mem_singleton_self top)
    exact absurd hkey (h.not_isKey hg hmem)
  · have hrest := heu.append hv
    have hbegins := begins_of_derives hg.not_isKey_epsilon
      (fun s hs => ⟨h.not_isKey hg hs, h.ne_epsilon hs⟩) hrest
    obtain ⟨consumed, hform⟩ := h.derives
    exact ⟨e, ht.get?_eq hform he (begins_withoutEpsilon_append_iff.mp hbegins), hrest⟩

/-- A move leads from a viable state to a viable state. -/
theorem of_moves (h : Viable g c) (hg : g.IsTextual) (ht : t.Predictive g) (hmoves : t.Moves c d) :
    Viable g d := by
  cases hmoves with
  | read token stack unread overrun =>
    obtain ⟨hoverrun, htokens, consumed, hderives⟩ := h
    refine ⟨hoverrun, fun s hs => htokens s (List.mem_cons_of_mem _ hs), consumed ++ [token], ?_⟩
    rw [List.append_assoc]
    exact hderives
  | overrun stack overrun => exact absurd List.mem_cons_self (h.endMark_not_mem hg)
  | expand stack unread overrun haction =>
    obtain ⟨hoverrun, htokens, consumed, hderives⟩ := h
    obtain ⟨_, _, hget⟩ := Table.action_eq_expand_iff.mp haction
    have hstep := Step.replace consumed stack (ht.mem_alternatives hget)
    exact ⟨hoverrun, htokens, consumed, hderives.trans hstep.derives⟩

/-- A move keeps the derivations of the unread tokens. -/
theorem derives_iff_of_moves (h : Viable g c) (hg : g.IsTextual) (ht : t.Predictive g)
    (hmoves : t.Moves c d) : g.Derives c.stack c.unread ↔ g.Derives d.stack d.unread := by
  cases hmoves with
  | read token stack unread overrun =>
    have hkey := h.not_isKey hg List.mem_cons_self
    constructor
    · intro hderives
      obtain ⟨u, v, heq, hu, hv⟩ := derives_cons_iff.mp hderives
      obtain rfl := (derives_singleton_iff_of_not_isKey hkey).mp hu
      obtain ⟨_, rfl⟩ := List.cons_eq_cons.mp heq
      exact hv
    · exact fun hderives => (Derives.refl [token]).append hderives
  | overrun stack overrun => exact absurd List.mem_cons_self (h.endMark_not_mem hg)
  | @expand key rule stack unread overrun haction =>
    obtain ⟨_, hrow, hget⟩ := Table.action_eq_expand_iff.mp haction
    constructor
    · intro hderives
      obtain ⟨e, he, hrest⟩ := h.exists_rule hg ht (ht.isRow_iff.mp hrow) hderives
      rw [hget] at he
      obtain rfl := Option.some.inj he
      exact hrest
    · exact fun hderives => (Step.replace [] stack (ht.mem_alternatives hget)).derives.trans hderives

/-- From a state that is stuck nothing is derived. -/
theorem not_derives_of_stuck (h : Viable g c) (hg : g.IsTextual) (ht : t.Predictive g)
    (hstack : c.stack = top :: stack) (hstuck : c.advance t = none) :
    ¬ g.Derives c.stack c.unread := by
  obtain ⟨_, unread, overrun⟩ := c
  obtain rfl := hstack
  intro hderives
  obtain ⟨hconsume, hexpand⟩ := Table.action_ne_of_advance_eq_none hstuck
  rw [ne_eq, Table.action_eq_consume_iff] at hconsume
  by_cases hkey : g.isKey top
  · obtain ⟨e, hget, _⟩ := h.exists_rule hg ht hkey hderives
    exact hexpand _ (Table.action_eq_expand_iff.mpr ⟨hconsume, ht.isRow_iff.mpr hkey, hget⟩)
  · obtain ⟨u, v, rfl, hu, _⟩ := derives_cons_iff.mp hderives
    obtain rfl := (derives_singleton_iff_of_not_isKey hkey).mp hu
    exact hconsume rfl

/-- A move that reads no token lowers the cost. -/
theorem cost_lt_of_moves (h : Viable g c) (hg : g.IsTextual) (ht : t.Predictive g)
    (hacyclic : ¬ ∃ s, TransGen g.Exposes s s) (hmoves : t.Moves c d) (hread : ¬ c.readsToken) :
    g.cost t.width d.stack < g.cost t.width c.stack := by
  cases hmoves with
  | read token stack unread overrun => exact absurd (decide_eq_true rfl) hread
  | overrun stack overrun => exact absurd List.mem_cons_self (h.endMark_not_mem hg)
  | expand stack unread overrun haction =>
    obtain ⟨_, _, hget⟩ := Table.action_eq_expand_iff.mp haction
    exact cost_lt_of_mem_alternatives hacyclic (ht.mem_alternatives hget)
      (Table.right_length_le_width hget)

end Viable
end LL1
