import LL1.Proofs.Analysis.Following
import LL1.Proofs.Conflict
import LL1.Proofs.LeftRecursion.Symbols
import LL1.Report.Predictions
import Mathlib.Data.List.Nodup

/-!
# What a written table shows

FIRST of a key is FIRST of its alternatives together, and the key vanishes if one of them
does. So a lookahead has a rule in the row of a key exactly if it is in FIRST of the key or
the key vanishes and the lookahead is in FOLLOW of it. Whatever is in these sets occurs in
an alternative or is the end mark, and hence it has a column. Therefore each cell of a
table is written once, and the grid shows nothing else.
-/

namespace LL1

variable {g : Grammar} {a : Analysis} {t : Table} {rule : Rule} {key lookahead s : Symbol}

/-! ## Rows -/

/-- A lookahead belongs to the row of a key: it is in FIRST of the key, or the key is
nullable and the lookahead is in FOLLOW of the key. -/
def Analysis.Expects (a : Analysis) (key lookahead : Symbol) : Prop :=
  (∃ first, a.first? key = some first ∧ lookahead ∈ first) ∨
    (a.nullable key ∧ ∃ follow, a.follow? key = some follow ∧ lookahead ∈ follow)

namespace Grammar

theorem mem_terminals_iff : s ∈ g.terminals ↔ s ∈ g.occurring ∧ s ≠ .epsilon ∧ ¬ g.isKey s := by
  unfold terminals
  rw [List.mem_filter, OrderedSet.mem_toList, Bool.and_eq_true, Bool.not_eq_true',
    Bool.not_eq_true', ← Bool.not_eq_true, ← Bool.not_eq_true, Symbol.isEpsilon_iff]

theorem IsTextual.endMark_not_mem_terminals (hg : g.IsTextual) : .endMark ∉ g.terminals :=
  fun hmem => hg.endMark_not_mem_symbols (mem_symbols_of_mem_terminals hmem)

/-- What leads a form that an alternative derives occurs in some alternative. -/
theorem mem_terminals_of_starts {e : Expression} (he : e ∈ g.alternatives key)
    (hne : s ≠ .epsilon) (h : g.Starts e s) : s ∈ g.terminals := by
  obtain ⟨hkey, w, hw⟩ := (starts_iff_of_ne hne).mp h
  have hoccurs : s ∈ g.occurring := by
    rcases mem_occurring_of_derives hw List.mem_cons_self with hs | hs
    · exact mem_occurring he (Expression.mem_withoutEpsilon.mp hs).1
    · exact hs
  exact mem_terminals_iff.mpr ⟨hoccurs, hne, hkey⟩

/-- What follows a key is the end mark or occurs in some alternative. -/
theorem Follows.eq_endMark_or_mem_terminals (h : g.Follows key s) :
    s = .endMark ∨ s ∈ g.terminals := by
  rcases h with ⟨hs, _⟩ | ⟨hne, hkey, origin, horigin, u, v, hderives⟩
  · exact Or.inl hs
  · have hmem : s ∈ u ++ key :: s :: v := by simp
    rcases mem_occurring_of_derives hderives hmem with hs | hs
    · rw [List.mem_singleton] at hs
      exact absurd (hs ▸ horigin) hkey
    · exact Or.inr (mem_terminals_iff.mpr ⟨hs, hne, hkey⟩)

namespace Analyzed

variable (hepsilon : ¬ g.isKey .epsilon) (h : g.Analyzed a)
include hepsilon h

theorem complete : a.cache.Complete g := h.faithful.complete hepsilon h.recorded

theorem justified : Follow.Justified g a.settled.follow := by
  obtain ⟨cache, hfaithful, hrecorded, hsettled⟩ := h.exists_settled
  rw [hsettled]
  exact Follow.justified_followSets hepsilon (hfaithful.complete hepsilon hrecorded)

theorem exists_isFirst (hkey : g.isKey key) :
    ∃ first, a.first? key = some first ∧ g.IsFirst [key] first := by
  obtain ⟨first, hfirst⟩ := h.recorded.exists_symbol hkey
  exact ⟨first, hfirst, ((h.complete hepsilon).sound.symbols hfirst).2⟩

/-- The lookaheads of a row in terms of what the key derives. -/
theorem expects_iff (hkey : g.isKey key) :
    a.Expects key lookahead ↔ g.Starts [key] lookahead ∨
      (g.Vanishes [key] ∧ lookahead ∈ Follow.ofKey a.settled.follow key) := by
  obtain ⟨first, hfirst, hright⟩ := h.exists_isFirst hepsilon hkey
  have hnullable : a.nullable key ↔ g.Vanishes [key] := by
    unfold Analysis.nullable
    rw [hfirst]
    exact hright.nullable_iff
  unfold Analysis.Expects
  rw [hnullable, Analysis.follow?_mem_iff, hfirst, ← hright.mem_iff]
  simp

/-- The rules of a key are predicted by the lookaheads of its row. -/
theorem exists_predictions_iff (hkey : g.isKey key) (hne : lookahead ≠ .epsilon) :
    (∃ rule ∈ g.ruleList, rule.left = key ∧ lookahead ∈ a.predictions rule) ↔
      a.Expects key lookahead := by
  have hkey_ne : key ≠ .epsilon := fun heq => hepsilon (heq ▸ hkey)
  rw [h.expects_iff hepsilon hkey, starts_singleton_iff_of_isKey hkey hkey_ne,
    vanishes_singleton_iff hkey_ne]
  constructor
  · rintro ⟨rule, hrule, rfl, hmem⟩
    have he := mem_ruleList.mp hrule
    rcases (Analysis.mem_predictions_iff (h.complete hepsilon) he).mp hmem with
      ⟨_, hstarts⟩ | ⟨hvanishes, hfollow⟩
    · exact Or.inl ⟨rule.right, he, hstarts⟩
    · exact Or.inr ⟨⟨rule.right, he, hvanishes⟩, hfollow⟩
  · intro hexpects
    have hpredicts : ∀ e ∈ g.alternatives key, (lookahead ≠ .epsilon ∧ g.Starts e lookahead) ∨
        (g.Vanishes e ∧ lookahead ∈ Follow.ofKey a.settled.follow key) →
        ∃ rule ∈ g.ruleList, rule.left = key ∧ lookahead ∈ a.predictions rule := by
      intro e he hmem
      have hrule : ⟨key, e⟩ ∈ g.ruleList := mem_ruleList.mpr he
      refine ⟨_, hrule, rfl, ?_⟩
      exact (Analysis.mem_predictions_iff (h.complete hepsilon) (mem_ruleList.mp hrule)).mpr hmem
    rcases hexpects with ⟨e, he, hstarts⟩ | ⟨⟨e, he, hvanishes⟩, hfollow⟩
    · exact hpredicts e he (Or.inl ⟨hne, hstarts⟩)
    · exact hpredicts e he (Or.inr ⟨hvanishes, hfollow⟩)

theorem mem_columns_of_mem_predictions (hrule : rule ∈ g.ruleList)
    (hmem : lookahead ∈ a.predictions rule) : lookahead ∈ g.terminals ++ [.endMark] := by
  rw [List.mem_append, List.mem_singleton]
  have he := mem_ruleList.mp hrule
  rcases (Analysis.mem_predictions_iff (h.complete hepsilon) he).mp hmem with
    ⟨hne, hstarts⟩ | ⟨_, hfollow⟩
  · exact Or.inl (mem_terminals_of_starts he hne hstarts)
  · exact (h.justified hepsilon _ _ hfollow).eq_endMark_or_mem_terminals.symm

end Analyzed
end Grammar

/-! ## The cells of a table -/

namespace Table

/-- The cells of a table row by row. -/
def area (t : Table) : List Cell := t.keys.toList.flatMap fun key => t.lookaheads.map (Cell.mk key)

theorem mem_area_iff {cell : Cell} :
    cell ∈ t.area ↔ cell.key ∈ t.keys.toList ∧ cell.lookahead ∈ t.lookaheads := by
  obtain ⟨key, lookahead⟩ := cell
  unfold area
  simp [List.mem_flatMap, List.mem_map]

theorem nodup_area (h : t.lookaheads.Nodup) : t.area.Nodup := by
  unfold area
  rw [List.nodup_flatMap]
  constructor
  · intro key _
    exact h.map fun _ _ heq => (Cell.mk.inj heq).2
  · refine t.keys.nodup_toList.imp fun {key key'} hne cell hmem hmem' => ?_
    obtain ⟨_, _, rfl⟩ := List.mem_map.mp hmem
    obtain ⟨_, _, heq⟩ := List.mem_map.mp hmem'
    exact hne (Cell.mk.inj heq).1.symm

/-- Counting over rows and columns finds each occupied cell once. -/
theorem countP_area (h : t.lookaheads.Nodup)
    (hcells : ∀ cell ∈ t.cells, cell ∈ t.area) :
    t.area.countP (fun cell => (t.cells.get? cell).isSome) = t.size := by
  have hoccupied : (t.area.filter fun cell => (t.cells.get? cell).isSome).Perm t.cells.keys := by
    apply (List.perm_ext_iff_of_nodup ((nodup_area h).filter _) t.cells.nodup_keys).mpr
    intro cell
    rw [List.mem_filter, OrderedMap.mem_keys, ← OrderedMap.mem_iff]
    exact and_iff_right_of_imp (hcells cell)
  rw [List.countP_eq_length_filter, hoccupied.length_eq, OrderedMap.length_keys]
  rfl

end Table

namespace Grammar.Session

variable (hg : g.IsPrepared) (h : g.Session a) (ht : a.table = .ok t)
include h ht

theorem toList_keys_table : t.keys.toList = g.keys := by
  obtain ⟨_, _, rfl⟩ := Analysis.eq_of_table ht
  show (OrderedSet.ofList a.grammar.keys).toList = _
  rw [h.analyzed.grammar_eq]
  exact OrderedSet.toList_ofList_of_nodup g.nodup_keys

theorem lookaheads_table : t.lookaheads = g.terminals ++ [.endMark] := by
  obtain ⟨_, _, rfl⟩ := Analysis.eq_of_table ht
  rw [← h.analyzed.grammar_eq]

theorem ne_epsilon_of_mem_lookaheads (hmem : lookahead ∈ t.lookaheads) :
    lookahead ≠ .epsilon := by
  rw [h.lookaheads_table ht, List.mem_append, List.mem_singleton] at hmem
  rcases hmem with hmem | rfl
  · exact (mem_terminals_iff.mp hmem).2.1
  · decide

include hg

/-- The cells of a row that are occupied. -/
theorem isSome_get?_iff (hkey : g.isKey key) (hne : lookahead ≠ .epsilon) :
    (t.get? key lookahead).isSome ↔ a.Expects key lookahead := by
  rw [← h.analyzed.exists_predictions_iff hg.isTextual.not_isKey_epsilon hkey hne,
    Option.isSome_iff_exists]
  refine exists_congr fun rule => ?_
  rw [Analysis.get?_table_iff ht, h.analyzed.grammar_eq]

/-- No occupied cell lies outside the rows and columns. -/
theorem mem_area_of_get? (hget : t.get? key lookahead = some rule) :
    ⟨key, lookahead⟩ ∈ t.area := by
  obtain ⟨hrule, rfl, hmem⟩ := (Analysis.get?_table_iff ht).mp hget
  rw [h.analyzed.grammar_eq] at hrule
  rw [Table.mem_area_iff, h.toList_keys_table ht, h.lookaheads_table ht]
  constructor
  · exact mem_keys.mpr (isKey_of_mem_alternatives (mem_ruleList.mp hrule))
  · exact h.analyzed.mem_columns_of_mem_predictions hg.isTextual.not_isKey_epsilon hrule hmem

theorem nodup_lookaheads : t.lookaheads.Nodup := by
  have hterminals : g.terminals.Nodup := g.occurring.nodup_toList.filter _
  rw [h.lookaheads_table ht, List.nodup_append_comm, List.singleton_append, List.nodup_cons]
  exact ⟨hg.isTextual.endMark_not_mem_terminals, hterminals⟩

end Grammar.Session

/-! ## The written grid -/

namespace Report

/-- Columns and rows that are written out. An entry of a row may be empty. -/
structure Grid where
  columns : List String
  rows : List (String × List (Option String))
deriving DecidableEq

namespace Grid

def entryJson : Option String → Json
  | some text => .string text
  | none => .null

def json (grid : Grid) : Json :=
  .object [
    ("terminals", .strings grid.columns),
    ("rows", .array (grid.rows.map fun row =>
      .object [
        ("non_terminal", .string row.1),
        ("rules", .array (row.2.map entryJson))]))]

/-- The entry in a row and a column that the grid has. -/
def get? (grid : Grid) (i j : Nat) : Option (Option String) :=
  grid.rows[i]?.bind fun row => row.2[j]?

def ofTable (t : Table) : Grid where
  columns := t.lookaheads.map Symbol.display
  rows := t.keys.toList.map fun key => (key.display, (t.row key).map (Option.map Rule.display))

/-- The grid shows all cells of a table and nothing else. Its rows are the keys and its
columns the lookaheads, the end mark last. -/
structure Shows (grid : Grid) (a : Analysis) (t : Table) : Prop where
  nodup_columns : grid.columns.Nodup
  getLast?_columns : grid.columns.getLast? = some "$"
  columns_eq : grid.columns = t.lookaheads.map Symbol.display
  names_eq : grid.rows.map Prod.fst = a.grammar.keys.map Symbol.display
  has_cell {key lookahead : Symbol} {rule : Rule} : t.get? key lookahead = some rule →
    key ∈ a.grammar.keys ∧ lookahead ∈ t.lookaheads
  length_eq : ∀ row ∈ grid.rows, row.2.length = grid.columns.length
  count_eq : (grid.rows.flatMap Prod.snd).countP Option.isSome = t.size
  entry {i j : Nat} {key lookahead : Symbol} : a.grammar.keys[i]? = some key →
    t.lookaheads[j]? = some lookahead → ∃ shown, grid.get? i j = some shown ∧
      (shown.isSome ↔ a.Expects key lookahead) ∧
      ∀ text, shown = some text →
        ∃ rule, t.get? key lookahead = some rule ∧ rule.left = key ∧ text = rule.display

theorem json_ofTable (t : Table) : (ofTable t).json = Predictions.json t := by
  have hcell : entryJson ∘ Option.map Rule.display = Predictions.jsonCell := by
    funext cell
    cases cell <;> rfl
  unfold json ofTable Predictions.json
  simp only [List.map_map, Function.comp_def]
  rw [← hcell]
  rfl

theorem countP_ofTable (t : Table) :
    ((ofTable t).rows.flatMap Prod.snd).countP Option.isSome =
      t.area.countP fun cell => (t.cells.get? cell).isSome := by
  have hentries : (ofTable t).rows.flatMap Prod.snd =
      t.area.map fun cell => (t.cells.get? cell).map Rule.display := by
    unfold ofTable Table.area Table.row Table.get?
    rw [List.flatMap_map, List.map_flatMap]
    simp only [List.map_map, Function.comp_def]
  rw [hentries, List.countP_map]
  refine List.countP_congr fun cell _ => ?_
  rw [Function.comp_apply, Option.isSome_map]

theorem get?_ofTable {i j : Nat} (hi : t.keys.toList[i]? = some key)
    (hj : t.lookaheads[j]? = some lookahead) :
    (ofTable t).get? i j = some ((t.get? key lookahead).map Rule.display) := by
  unfold get? ofTable Table.row
  simp [hi, hj]

/-- Distinct columns are written differently. -/
theorem nodup_map_display {symbols : List Symbol} (h : symbols.Nodup)
    (hne : ∀ s ∈ symbols, s ≠ .epsilon) : (symbols.map Symbol.display).Nodup := by
  have hcontents : symbols.map Symbol.display = symbols.map Symbol.content := by
    refine List.map_congr_left fun s hs => ?_
    rw [Symbol.display, if_neg fun heq => hne s hs (Symbol.isEpsilon_iff.mp heq)]
  rw [hcontents]
  exact h.map fun _ _ => Symbol.ext

end Grid

/-- What is written of a table that has been built is a grid that shows it. -/
theorem Predictions.json_shows (hg : g.IsPrepared) (h : g.Session a) (ht : a.table = .ok t) :
    Predictions.json t = (Grid.ofTable t).json ∧ (Grid.ofTable t).Shows a t := by
  have hkeys : t.keys.toList = a.grammar.keys := by
    rw [h.toList_keys_table ht, h.analyzed.grammar_eq]
  have hcell : ∀ {key lookahead rule}, t.get? key lookahead = some rule →
      key ∈ a.grammar.keys ∧ lookahead ∈ t.lookaheads := by
    intro key lookahead rule hget
    have hmem := Table.mem_area_iff.mp (h.mem_area_of_get? hg ht hget)
    exact ⟨hkeys ▸ hmem.1, hmem.2⟩
  have hnodup := h.nodup_lookaheads hg ht
  refine ⟨(Grid.json_ofTable t).symm, ?_⟩
  exact {
    nodup_columns := Grid.nodup_map_display hnodup fun _ => h.ne_epsilon_of_mem_lookaheads ht
    getLast?_columns := by
      show (t.lookaheads.map Symbol.display).getLast? = _
      rw [h.lookaheads_table ht, List.map_append, List.map_singleton, List.getLast?_concat]
      rfl
    columns_eq := rfl
    names_eq := by
      show (t.keys.toList.map fun key => (key.display, _)).map Prod.fst = _
      rw [hkeys, List.map_map]
      rfl
    has_cell := hcell
    length_eq := by
      intro row hrow
      obtain ⟨key, _, rfl⟩ := List.mem_map.mp hrow
      simp [Grid.ofTable, Table.row]
    count_eq := by
      rw [Grid.countP_ofTable]
      refine Table.countP_area hnodup fun cell hcell => ?_
      obtain ⟨rule, hrule⟩ := Option.isSome_iff_exists.mp (OrderedMap.mem_iff.mp hcell)
      exact h.mem_area_of_get? hg ht hrule
    entry := by
      intro i j key lookahead hi hj
      have hkey : g.isKey key := by
        rw [h.analyzed.grammar_eq] at hi
        exact Grammar.mem_keys.mp (List.mem_of_getElem? hi)
      have hne := h.ne_epsilon_of_mem_lookaheads ht (List.mem_of_getElem? hj)
      refine ⟨_, Grid.get?_ofTable (hkeys ▸ hi) hj, ?_, ?_⟩
      · rw [Option.isSome_map]
        exact h.isSome_get?_iff hg ht hkey hne
      · intro text htext
        obtain ⟨rule, hrule, rfl⟩ := Option.map_eq_some_iff.mp htext
        exact ⟨rule, hrule, ((Analysis.get?_table_iff ht).mp hrule).2.1, rfl⟩ }

/-- A key that vanishes before a nonterminal without rules. -/
def unfinishedText : String := "<S> ::= <A> <U> | \"s\"\n<A> ::= \"a\" | \"\""

def unfinished : Grammar :=
  let s := Symbol.nonTerminal "S"
  let a := Symbol.nonTerminal "A"
  ((Grammar.ofStart s).add s [[a, .nonTerminal "U"], [.terminal "s"]]).add a
    [[.terminal "a"], [.epsilon]]

def unfinishedGrid : Grid where
  columns := ["<U>", "\"s\"", "\"a\"", "$"]
  rows := [
    ("<S>", [some "<S> -> <A> <U>", some "<S> -> \"s\"", some "<S> -> <A> <U>", none]),
    ("<A>", [some "<A> -> ε", none, some "<A> -> \"a\"", none])]

theorem Predictions.json_shows_unfinished :
    Bnf.read unfinishedText = .ok unfinished ∧ ∃ a t, unfinished.Session a ∧ a.table = .ok t ∧
      Predictions.json t = (Grid.ofTable t).json ∧
      Grid.ofTable t = unfinishedGrid ∧ (Grid.ofTable t).Shows a t := by
  have hread : Bnf.read unfinishedText = .ok unfinished := by decide +kernel
  have heval : (unfinished.analyze.map fun a => a.table.map Grid.ofTable) =
      .ok (.ok unfinishedGrid) := by
    decide +kernel
  obtain ⟨a, ha, htable⟩ := map_eq_ok_iff.mp heval
  obtain ⟨t, ht, hgrid⟩ := map_eq_ok_iff.mp htable
  obtain ⟨hjson, hshows⟩ := Predictions.json_shows (.read hread) (.start ha) ht
  exact ⟨hread, a, t, .start ha, ht, hjson, hgrid, hshows⟩

end Report
end LL1
