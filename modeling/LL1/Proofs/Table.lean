import LL1.Proofs.Analysis.Follow
import LL1.Proofs.Except
import LL1.Source

/-!
# What tables hold

Entering rules either meets a conflict or leaves all of them in the cells that they
belong to, so a table holds a rule in a cell exactly if the lookahead predicts it. The
FOLLOW sets are closed. Therefore a key of a form that is derived from the start symbol
has a rule under every lookahead that an alternative of the key can bring up there.
-/

namespace LL1

namespace Table

variable {cells cells' : Cells} {cell : Cell} {rule r : Rule} {t : Table} {key lookahead : Symbol}

theorem get?_enter_iff (h : enter cells cell rule = .ok cells') {c : Cell} :
    cells'.get? c = some r ↔ cells.get? c = some r ∨ (c = cell ∧ r = rule) := by
  unfold enter at h
  cases hget : cells.get? cell with
  | none =>
    rw [hget] at h
    obtain rfl := Except.ok.inj h
    rw [OrderedMap.get?_insert]
    by_cases hc : c = cell
    · rw [if_pos hc, hc, hget, Option.some_inj, and_iff_right rfl]
      exact eq_comm.trans (or_iff_right (nomatch ·)).symm
    · rw [if_neg hc]
      exact (or_iff_left fun h => hc h.1).symm
  | some existing =>
    rw [hget] at h
    by_cases heq : existing = rule
    · simp only [if_pos heq] at h
      obtain rfl := Except.ok.inj h
      refine (or_iff_left_of_imp fun hc => ?_).symm
      rw [hc.1, hc.2, hget, heq]
    · simp only [if_neg heq] at h
      exact nomatch h

theorem get?_enterUnder_iff {lookaheads : List Symbol}
    (h : enterUnder rule cells lookaheads = .ok cells') {c : Cell} :
    cells'.get? c = some r ↔
      cells.get? c = some r ∨ (r = rule ∧ c.key = rule.left ∧ c.lookahead ∈ lookaheads) := by
  induction lookaheads generalizing cells with
  | nil =>
    obtain rfl := Except.ok.inj h
    simp
  | cons lookahead lookaheads ih =>
    obtain ⟨between, hbetween, hrest⟩ := bind_eq_ok_iff.mp h
    rw [ih hrest, get?_enter_iff hbetween, List.mem_cons]
    obtain ⟨key, a⟩ := c
    rw [Cell.mk.injEq]
    tauto

end Table

namespace Analysis

variable {a : Analysis} {cells cells' : Table.Cells} {rule r : Rule} {t : Table}
  {key lookahead : Symbol}

theorem get?_enterRules_iff {rules : List Rule} (h : a.enterRules cells rules = .ok cells')
    {c : Cell} :
    cells'.get? c = some r ↔
      cells.get? c = some r ∨ (r ∈ rules ∧ r.left = c.key ∧ c.lookahead ∈ a.predictions r) := by
  induction rules generalizing cells with
  | nil =>
    obtain rfl := Except.ok.inj h
    simp
  | cons rule rules ih =>
    obtain ⟨between, hbetween, hrest⟩ := bind_eq_ok_iff.mp h
    rw [ih hrest, Table.get?_enterUnder_iff hbetween, or_assoc, List.mem_cons, or_and_right]
    refine or_congr_right (or_congr_left (and_congr_right fun hr => ?_))
    rw [hr, eq_comm]

theorem get?_enterRules_empty_iff {rules : List Rule} (h : a.enterRules ∅ rules = .ok cells)
    {c : Cell} :
    cells.get? c = some r ↔ r ∈ rules ∧ r.left = c.key ∧ c.lookahead ∈ a.predictions r := by
  rw [get?_enterRules_iff h, OrderedMap.get?_empty]
  exact or_iff_right nofun

/-- What a table that is built is made of. -/
theorem eq_of_table (h : a.table = .ok t) :
    ∃ cells, a.enterRules ∅ a.grammar.ruleList = .ok cells ∧
      t = ⟨a.grammar.start, a.grammar.terminals ++ [.endMark],
        OrderedSet.ofList a.grammar.keys, cells⟩ := by
  obtain ⟨cells, hcells, ht⟩ := bind_eq_ok_iff.mp h
  exact ⟨cells, hcells, (Except.ok.inj ht).symm⟩

/-- A cell holds the rule of its row that its column predicts. -/
theorem get?_table_iff (h : a.table = .ok t) :
    t.get? key lookahead = some rule ↔
      rule ∈ a.grammar.ruleList ∧ rule.left = key ∧ lookahead ∈ a.predictions rule := by
  obtain ⟨cells, hcells, rfl⟩ := eq_of_table h
  exact get?_enterRules_empty_iff hcells

variable {g : Grammar}

/-- The lookaheads of a rule for whose right side FIRST is held. -/
theorem mem_predictions_iff_of_first {first : SymbolSet}
    (h : a.alternativeFirst? rule.right = some first) :
    lookahead ∈ a.predictions rule ↔
      (lookahead ≠ .epsilon ∧ lookahead ∈ first) ∨
        (.epsilon ∈ first ∧ lookahead ∈ Follow.ofKey a.settled.follow rule.left) := by
  unfold predictions
  rw [h]
  show lookahead ∈ first.nonEpsilon ++ _ ↔ _
  rw [List.mem_append, SymbolSet.mem_nonEpsilon, ← SymbolSet.nullable_iff]
  refine or_congr_right ?_
  by_cases hnull : first.nullable
  · rw [if_pos hnull, OrderedSet.mem_toList, and_iff_right hnull]
    exact Iff.rfl
  · rw [if_neg hnull]
    exact iff_of_false List.not_mem_nil fun h => hnull h.1

theorem mem_predictions_iff (hcomplete : a.cache.Complete g)
    (hright : rule.right ∈ g.alternatives rule.left) :
    lookahead ∈ a.predictions rule ↔
      (lookahead ≠ .epsilon ∧ g.Starts rule.right lookahead) ∨
        (g.Vanishes rule.right ∧ lookahead ∈ Follow.ofKey a.settled.follow rule.left) := by
  obtain ⟨first, hget, hfirst⟩ := hcomplete.exists_isFirst hright
  rw [mem_predictions_iff_of_first hget, hfirst.mem_iff, hfirst.mem_iff,
    Grammar.starts_epsilon_iff]

end Analysis

namespace Grammar

variable {g : Grammar} {form : List Symbol} {a : Symbol}

/-- The lookahead `a` begins what is derived from a form. If that is nothing, the end
mark does. -/
def Begins (g : Grammar) (form : List Symbol) (a : Symbol) : Prop :=
  (a ≠ .epsilon ∧ g.Starts form a) ∨ (a = .endMark ∧ g.Vanishes form)

theorem begins_withoutEpsilon_append_iff {e : Expression} :
    g.Begins (e.withoutEpsilon ++ form) a ↔ g.Begins (e ++ form) a := by
  unfold Begins
  rw [vanishes_append, vanishes_append, vanishes_withoutEpsilon_iff]
  refine or_congr_left (and_congr_right fun ha => ?_)
  rw [starts_append_iff ha, starts_append_iff ha, starts_withoutEpsilon_iff,
    vanishes_withoutEpsilon_iff]

/-- What is derived without keys begins with its first symbol. -/
theorem begins_of_derives (hepsilon : ¬ g.isKey .epsilon) {w : List Symbol}
    (hw : ∀ s ∈ w, ¬ g.isKey s ∧ s ≠ .epsilon) (h : g.Derives form w) :
    g.Begins form (w.head?.getD .endMark) := by
  have h := h.withoutEpsilon hepsilon
  cases w with
  | nil => exact Or.inr ⟨rfl, h⟩
  | cons a w =>
    obtain ⟨hkey, hne⟩ := hw a List.mem_cons_self
    rw [Expression.withoutEpsilon_cons_of_ne hne] at h
    exact Or.inl ⟨hne, (starts_iff_of_ne hne).mpr ⟨hkey, _, h⟩⟩

end Grammar

/-- The table finds the rule with which a leftmost derivation goes on. -/
structure Table.Predictive (t : Table) (g : Grammar) : Prop where
  start_eq : t.start = g.start
  isRow_iff {s : Symbol} : t.isRow s ↔ g.isKey s
  mem_alternatives {s a : Symbol} {rule : Rule} :
    t.get? s a = some rule → rule.right ∈ g.alternatives s
  get?_eq {u rest : List Symbol} {s a : Symbol} {e : Expression} :
    g.Derives [g.start] (u ++ s :: rest) → e ∈ g.alternatives s → g.Begins (e ++ rest) a →
      t.get? s a = some ⟨s, e⟩

namespace Table

variable {g : Grammar} {t : Table}

theorem Predictive.length_keys_le (h : t.Predictive g) : g.keys.length ≤ t.keys.size := by
  rw [← OrderedSet.length_toList]
  refine g.nodup_keys.length_le_of_subset fun s hs => ?_
  exact OrderedSet.mem_toList.mpr (of_decide_eq_true (h.isRow_iff.mpr (Grammar.mem_keys.mp hs)))

theorem predictive_of_table (hepsilon : ¬ g.isKey .epsilon) (h : g.table = .ok t) :
    t.Predictive g := by
  obtain ⟨a, ha, htable⟩ := bind_eq_ok_iff.mp h
  have htable := mapError_eq_ok_iff.mp htable
  obtain ⟨rfl, hcomplete, hsettled⟩ := Grammar.analyze_eq_ok hepsilon (mapError_eq_ok_iff.mp ha)
  have hget : ∀ {key lookahead rule}, t.get? key lookahead = some rule ↔
      rule ∈ a.grammar.ruleList ∧ rule.left = key ∧ lookahead ∈ a.predictions rule :=
    Analysis.get?_table_iff htable
  have hclosed := Follow.closed_followSets hcomplete
  rw [← hsettled] at hclosed
  obtain ⟨cells, _, ht⟩ := Analysis.eq_of_table htable
  have hkeys : t.keys = OrderedSet.ofList a.grammar.keys := congrArg Table.keys ht
  refine ⟨congrArg Table.start ht, ?_, ?_, ?_⟩
  · intro s
    unfold isRow
    rw [hkeys, decide_eq_true_eq, OrderedSet.mem_ofList, Grammar.mem_keys]
  · intro s lookahead rule hrule
    obtain ⟨hmem, rfl, _⟩ := hget.mp hrule
    exact Grammar.mem_ruleList.mp hmem
  · intro u rest s lookahead e hderives he hbegins
    have hmem : ⟨s, e⟩ ∈ a.grammar.ruleList := Grammar.mem_ruleList.mpr he
    refine hget.mpr ⟨hmem, rfl, (Analysis.mem_predictions_iff hcomplete he).mpr ?_⟩
    obtain ⟨hfirst, hend⟩ := hclosed.covers_of_derives hepsilon hderives u s rest rfl
      (Grammar.isKey_of_mem_alternatives he)
    rcases hbegins with ⟨hne, hstarts⟩ | ⟨rfl, hvanishes⟩
    · rw [Grammar.starts_append_iff hne] at hstarts
      exact hstarts.imp (fun h => ⟨hne, h⟩) fun h => ⟨h.1, hfirst lookahead hne h.2⟩
    · rw [Grammar.vanishes_append] at hvanishes
      exact Or.inr ⟨hvanishes.1, hend hvanishes.2⟩

/-- A rule stands in the row of its left side. -/
theorem left_eq_of_table (h : g.table = .ok t) {key lookahead : Symbol} {rule : Rule}
    (hget : t.get? key lookahead = some rule) : rule.left = key := by
  obtain ⟨a, _, htable⟩ := bind_eq_ok_iff.mp h
  exact ((Analysis.get?_table_iff (mapError_eq_ok_iff.mp htable)).mp hget).2.1

end Table
end LL1
