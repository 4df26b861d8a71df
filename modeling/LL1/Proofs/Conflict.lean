import LL1.Proofs.Analysis.Session
import LL1.Proofs.Table

/-!
# Which tables can be built

The rules are entered one after the other. What has been entered without a conflict gives
each cell to one rule, so a table can be built exactly if no two rules of one key are
predicted by the same lookahead. The conflict that stops the building is the first one:
the incoming rule is the earliest that shares a lookahead with another rule before it, and
the existing rule is the earliest that the lookahead predicts.
-/

namespace LL1

open Grammar

variable {g : Grammar} {a : Analysis} {rule r r' : Rule} {rules : List Rule} {c : Conflict}
  {lookahead : Symbol}

/-! ## The first conflict -/

namespace Table

variable {cells : Cells} {cell : Cell}

theorem enter_eq_error (h : enter cells cell rule = .error c) :
    c.cell = cell ∧ c.incoming = rule ∧ cells.get? cell = some c.existing ∧ c.existing ≠ rule := by
  unfold enter at h
  cases hget : cells.get? cell with
  | none =>
    rw [hget] at h
    cases h
  | some existing =>
    rw [hget] at h
    by_cases heq : existing = rule
    · simp only [if_pos heq] at h
      cases h
    · simp only [if_neg heq] at h
      obtain rfl := Except.error.inj h
      exact ⟨rfl, rfl, rfl, heq⟩

/-- A rule that cannot be entered finds another one in a cell, and that has been there
before the rule was entered anywhere. -/
theorem enterUnder_eq_error {lookaheads : List Symbol}
    (h : enterUnder rule cells lookaheads = .error c) :
    c.incoming = rule ∧ c.cell.key = rule.left ∧ c.cell.lookahead ∈ lookaheads ∧
      cells.get? c.cell = some c.existing ∧ c.existing ≠ rule := by
  induction lookaheads generalizing cells with
  | nil => cases h
  | cons lookahead lookaheads ih =>
    rcases bind_eq_error_iff.mp h with h | ⟨between, hbetween, h⟩
    · obtain ⟨hcell, hincoming, hget, hne⟩ := enter_eq_error h
      rw [hcell]
      exact ⟨hincoming, rfl, List.mem_cons_self, hget, hne⟩
    · obtain ⟨hincoming, hkey, hmem, hget, hne⟩ := ih h
      refine ⟨hincoming, hkey, List.mem_cons_of_mem _ hmem, ?_, hne⟩
      exact ((get?_enter_iff hbetween).mp hget).resolve_right fun h => hne h.2

end Table

namespace Analysis

variable {cells : Table.Cells}

/-- The rules before the incoming one have been entered. -/
theorem exists_of_enterRules_eq_error (h : a.enterRules cells rules = .error c) :
    ∃ before after between, rules = before ++ c.incoming :: after ∧
      a.enterRules cells before = .ok between ∧
      Table.enterUnder c.incoming between (a.predictions c.incoming) = .error c := by
  induction rules generalizing cells with
  | nil => cases h
  | cons rule rules ih =>
    rcases bind_eq_error_iff.mp h with h | ⟨entered, hentered, h⟩
    · obtain ⟨rfl, _⟩ := Table.enterUnder_eq_error h
      exact ⟨[], rules, cells, rfl, rfl, h⟩
    · obtain ⟨before, after, between, rfl, hbetween, hlast⟩ := ih h
      exact ⟨rule :: before, after, between, rfl, bind_eq_ok_iff.mpr ⟨entered, hentered, hbetween⟩,
        hlast⟩

/-! ## Predictions -/

/-- A lookahead predicts a rule if it is in FIRST of the right side or if that holds the
empty string and the lookahead is in FOLLOW of the left side. -/
def Predicts (a : Analysis) (lookahead : Symbol) (rule : Rule) : Prop :=
  ∃ first b, a.askExpression rule.right = .ok (first, b) ∧
    ((lookahead ≠ .epsilon ∧ lookahead ∈ first) ∨
      (.epsilon ∈ first ∧ ∃ follow, a.follow? rule.left = some follow ∧ lookahead ∈ follow))

/-- Two different rules of one key share a lookahead. -/
def Clash (a : Analysis) (r r' : Rule) : Prop :=
  r ≠ r' ∧ r.left = r'.left ∧ ∃ lookahead, a.Predicts lookahead r ∧ a.Predicts lookahead r'

theorem follow?_mem_iff {key : Symbol} :
    (∃ follow, a.follow? key = some follow ∧ lookahead ∈ follow) ↔
      lookahead ∈ Follow.ofKey a.settled.follow key := by
  unfold follow? Follow.ofKey
  cases a.settled.follow.get? key with
  | none => exact iff_of_false nofun OrderedSet.not_mem_empty
  | some follow =>
    constructor
    · rintro ⟨set, hset, hmem⟩
      rw [Option.some.inj hset]
      exact hmem
    · exact fun hmem => ⟨follow, rfl, hmem⟩

end Analysis

/-- FIRST of every alternative is held, so the table leaves no rule out. -/
theorem Grammar.Session.mem_predictions_iff (h : g.Session a) (hrule : rule ∈ g.ruleList) :
    lookahead ∈ a.predictions rule ↔ a.Predicts lookahead rule := by
  obtain ⟨first, hfirst, hask⟩ := h.exists_alternativeFirst (mem_ruleList.mp hrule)
  rw [Analysis.mem_predictions_iff_of_first hfirst, ← Analysis.follow?_mem_iff]
  constructor
  · exact fun hpredicted => ⟨first, a, hask, hpredicted⟩
  · rintro ⟨asked, b, hasked, hpredicted⟩
    rw [hask] at hasked
    obtain ⟨rfl, _⟩ := Prod.mk.inj (Except.ok.inj hasked)
    exact hpredicted

/-! ## Genuine conflicts -/

/-- A rule that has some property, given the rules before it, as the first one in a list. -/
def Rule.IsEarliest (rule : Rule) (rules : List Rule) (holds : List Rule → Rule → Prop) : Prop :=
  ∃ before after, rules = before ++ rule :: after ∧ holds before rule ∧
    ∀ early r late, before = early ++ r :: late → ¬ holds early r

theorem Rule.IsEarliest.mem {rules : List Rule} {holds : List Rule → Rule → Prop}
    (h : rule.IsEarliest rules holds) : rule ∈ rules := by
  obtain ⟨before, after, rfl, _⟩ := h
  exact List.mem_append_right _ List.mem_cons_self

/-- A conflict between two rules of a list that share a lookahead in one row. -/
structure Conflict.IsGenuine (c : Conflict) (a : Analysis) (rules : List Rule) : Prop where
  existing_ne_incoming : c.existing ≠ c.incoming
  left_existing : c.existing.left = c.cell.key
  left_incoming : c.incoming.left = c.cell.key
  predicts_existing : a.Predicts c.cell.lookahead c.existing
  predicts_incoming : a.Predicts c.cell.lookahead c.incoming
  incoming_isEarliest : c.incoming.IsEarliest rules fun before r => ∃ r' ∈ before, a.Clash r' r
  existing_isEarliest : c.existing.IsEarliest rules fun _ r =>
    r.left = c.cell.key ∧ a.Predicts c.cell.lookahead r

namespace Grammar.Session

/-- Rules that have been entered do not share a cell. -/
theorem not_clash_of_enterRules {cells : Table.Cells} (h : g.Session a)
    (hrules : ∀ r ∈ rules, r ∈ g.ruleList) (hentered : a.enterRules ∅ rules = .ok cells)
    (hr : r ∈ rules) (hr' : r' ∈ rules) : ¬ a.Clash r r' := by
  rintro ⟨hne, hleft, lookahead, hpredicts, hpredicts'⟩
  rw [← h.mem_predictions_iff (hrules r hr)] at hpredicts
  rw [← h.mem_predictions_iff (hrules r' hr')] at hpredicts'
  have hget : cells.get? ⟨r'.left, lookahead⟩ = some r :=
    (Analysis.get?_enterRules_empty_iff hentered).mpr ⟨hr, hleft, hpredicts⟩
  have hget' : cells.get? ⟨r'.left, lookahead⟩ = some r' :=
    (Analysis.get?_enterRules_empty_iff hentered).mpr ⟨hr', rfl, hpredicts'⟩
  exact hne (Option.some.inj (hget.symm.trans hget'))

theorem isGenuine_of_enterRules (h : g.Session a) (hfails : a.enterRules ∅ g.ruleList = .error c) :
    c.IsGenuine a g.ruleList := by
  obtain ⟨before, after, cells, hsplit, hentered, hlast⟩ :=
    Analysis.exists_of_enterRules_eq_error hfails
  obtain ⟨_, hkey, hmem, hget, hne⟩ := Table.enterUnder_eq_error hlast
  obtain ⟨hexisting, hleft, hmem'⟩ := (Analysis.get?_enterRules_empty_iff hentered).mp hget
  have hbefore : ∀ r ∈ before, r ∈ g.ruleList := by
    intro r hr
    rw [hsplit]
    exact List.mem_append_left _ hr
  have hincoming : c.incoming ∈ g.ruleList := by
    rw [hsplit]
    exact List.mem_append_right _ List.mem_cons_self
  have hclear : ∀ r ∈ before, ∀ r' ∈ before, ¬ a.Clash r r' := fun _ hr _ hr' =>
    h.not_clash_of_enterRules hbefore hentered hr hr'
  have hpredicts : a.Predicts c.cell.lookahead c.incoming :=
    (h.mem_predictions_iff hincoming).mp hmem
  have hpredicts' : a.Predicts c.cell.lookahead c.existing :=
    (h.mem_predictions_iff (hbefore _ hexisting)).mp hmem'
  refine ⟨hne, hleft, hkey.symm, hpredicts', hpredicts, ⟨before, after, hsplit, ?_, ?_⟩, ?_⟩
  · exact ⟨c.existing, hexisting, hne, hleft.trans hkey, c.cell.lookahead, hpredicts', hpredicts⟩
  · rintro early r late heq ⟨r', hr', hclash⟩
    have hr : r ∈ before := heq ▸ List.mem_append_right _ List.mem_cons_self
    have hr' : r' ∈ before := heq ▸ List.mem_append_left _ hr'
    exact hclear r' hr' r hr hclash
  · -- an earlier rule for the cell would clash with the existing one
    obtain ⟨early, late, heq, hnew⟩ := List.eq_append_cons_of_mem hexisting
    refine ⟨early, late ++ c.incoming :: after, by rw [hsplit, heq]; simp, ⟨hleft, hpredicts'⟩, ?_⟩
    rintro start r rest hstart ⟨hr, ht⟩
    have hmem : r ∈ early := hstart ▸ List.mem_append_right _ List.mem_cons_self
    have hne : r ≠ c.existing := fun hsame => hnew (hsame ▸ hmem)
    have hclash : a.Clash r c.existing := ⟨hne, hr.trans hleft.symm, _, ht, hpredicts'⟩
    exact hclear r (heq ▸ List.mem_append_left _ hmem) _ hexisting hclash

theorem isGenuine_of_table (h : g.Session a) (hfails : a.table = .error c) :
    c.IsGenuine a g.ruleList := by
  unfold Analysis.table at hfails
  rw [h.analyzed.grammar_eq] at hfails
  rcases bind_eq_error_iff.mp hfails with hfails | ⟨_, _, hfails⟩
  · exact h.isGenuine_of_enterRules hfails
  · cases hfails

theorem exists_table_iff (h : g.Session a) :
    (∃ t, a.table = .ok t) ↔ ∀ r ∈ g.ruleList, ∀ r' ∈ g.ruleList, ¬ a.Clash r r' := by
  constructor
  · rintro ⟨t, ht⟩ r hr r' hr'
    obtain ⟨cells, hentered, _⟩ := Analysis.eq_of_table ht
    rw [h.analyzed.grammar_eq] at hentered
    exact h.not_clash_of_enterRules (fun _ hr => hr) hentered hr hr'
  · intro hclear
    cases htable : a.table with
    | ok t => exact ⟨t, rfl⟩
    | error c =>
      obtain ⟨before, after, hsplit, ⟨r, hr, hclash⟩, _⟩ :=
        (h.isGenuine_of_table htable).incoming_isEarliest
      refine absurd hclash (hclear r ?_ c.incoming ?_)
      · rw [hsplit]
        exact List.mem_append_left _ hr
      · rw [hsplit]
        exact List.mem_append_right _ List.mem_cons_self

/-- A table is built exactly if no rules clash, and then its cells hold the rules that are
predicted there. Otherwise the conflict that is reported is genuine and the first one. -/
theorem table_exact (h : g.Session a) :
    ((∃ t, a.table = .ok t) ↔ ∀ r ∈ g.ruleList, ∀ r' ∈ g.ruleList, ¬ a.Clash r r') ∧
      (∀ t, a.table = .ok t → ∀ key lookahead rule, t.get? key lookahead = some rule ↔
        rule ∈ g.ruleList ∧ rule.left = key ∧ a.Predicts lookahead rule) ∧
      ∀ c, a.table = .error c → c.IsGenuine a g.ruleList := by
  refine ⟨h.exists_table_iff, fun t ht key lookahead rule => ?_, fun c => h.isGenuine_of_table⟩
  rw [Analysis.get?_table_iff ht, h.analyzed.grammar_eq]
  refine and_congr_right fun hrule => and_congr_right fun _ => ?_
  exact h.mem_predictions_iff hrule

theorem mem_ruleList_of_get? {t : Table} {key : Symbol} (h : g.Session a) (ht : a.table = .ok t)
    (hget : t.get? key lookahead = some rule) : rule ∈ g.ruleList := by
  rw [← h.analyzed.grammar_eq]
  exact ((Analysis.get?_table_iff ht).mp hget).1

end Grammar.Session

theorem Grammar.exists_session_of_table {t : Table} (h : g.table = .ok t) : ∃ a, g.Session a ∧ a.table = .ok t := by
  obtain ⟨a, ha, htable⟩ := bind_eq_ok_iff.mp h
  exact ⟨a, .start (mapError_eq_ok_iff.mp ha), mapError_eq_ok_iff.mp htable⟩

theorem Grammar.exists_session_of_conflict (h : g.table = .error (.conflict c)) :
    ∃ a, g.Session a ∧ a.table = .error c := by
  rcases bind_eq_error_iff.mp h with h | ⟨a, ha, h⟩
  · obtain ⟨key, _, heq⟩ := exists_of_mapError_eq_error h
    cases heq
  · obtain ⟨c', hc', heq⟩ := exists_of_mapError_eq_error h
    obtain rfl := Failure.conflict.inj heq
    exact ⟨a, .start (mapError_eq_ok_iff.mp ha), hc'⟩

/-- A symbol may belong to an optional part or to what follows it. The first two rules of
`A` are the same, and so they do not clash. -/
def Grammar.undecided : Grammar :=
  let s := Symbol.nonTerminal "S"
  let a := Symbol.nonTerminal "A"
  ((Grammar.ofStart s).add s [[a, .terminal "a"]]).add a
    [[.terminal "a"], [.terminal "a"], [.epsilon]]

theorem Grammar.table_exact_undecided :
    ∃ a, undecided.Session a ∧ ∃ c, a.table = .error c ∧
      c.cell = ⟨.nonTerminal "A", .terminal "a"⟩ ∧
      c.existing = ⟨.nonTerminal "A", [.terminal "a"]⟩ ∧
      c.incoming = ⟨.nonTerminal "A", [.epsilon]⟩ ∧ c.IsGenuine a undecided.ruleList := by
  have heval : (undecided.analyze.map fun a => a.table.map fun _ => ()) =
      .ok (.error ⟨⟨.nonTerminal "A", .terminal "a"⟩, ⟨.nonTerminal "A", [.terminal "a"]⟩,
        ⟨.nonTerminal "A", [.epsilon]⟩⟩) := by
    decide +kernel
  obtain ⟨a, ha, heval⟩ := map_eq_ok_iff.mp heval
  have hfails := map_eq_error_iff.mp heval
  exact ⟨a, .start ha, _, hfails, rfl, rfl, rfl,
    (Session.table_exact (.start ha)).2.2 _ hfails⟩

end LL1
