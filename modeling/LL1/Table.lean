import LL1.Analysis

/-!
# Prediction tables

A rule is predicted in its left side's row by every symbol of FIRST of its right
side and, if that derives the empty string, by every symbol of FOLLOW of its left
side. The grammar is LL(1) if no cell would receive two different rules.
-/

namespace LL1

structure Cell where
  key : Symbol
  lookahead : Symbol
deriving DecidableEq

/-- Cells are ordered by row and then by column. -/
instance : Ord Cell := ⟨compareLex (compareOn Cell.key) (compareOn Cell.lookahead)⟩

instance : Std.TransOrd Cell :=
  inferInstanceAs (Std.TransCmp (compareLex (compareOn Cell.key) (compareOn Cell.lookahead)))

instance : Std.LawfulEqOrd Cell where
  eq_of_compare {a b} h := by
    obtain ⟨hkey, hlookahead⟩ := Ordering.then_eq_eq.mp h
    cases a
    cases b
    congr
    · exact Std.LawfulEqOrd.eq_of_compare hkey
    · exact Std.LawfulEqOrd.eq_of_compare hlookahead

def Cell.display (cell : Cell) : String :=
  "[" ++ cell.key.display ++ ", " ++ cell.lookahead.display ++ "]"

/-- Two rules that are predicted in one cell. -/
structure Conflict where
  cell : Cell
  existing : Rule
  incoming : Rule
deriving DecidableEq

structure Table where
  start : Symbol
  /-- The columns. The end mark is the last of them. -/
  lookaheads : List Symbol
  /-- The rows. -/
  keys : OrderedSet Symbol
  cells : OrderedMap Cell Rule

namespace Table

def get? (t : Table) (key lookahead : Symbol) : Option Rule := t.cells.get? ⟨key, lookahead⟩

def isRow (t : Table) (s : Symbol) : Bool := s ∈ t.keys

/-- The number of occupied cells. -/
def size (t : Table) : Nat := t.cells.size

def row (t : Table) (key : Symbol) : List (Option Rule) := t.lookaheads.map (t.get? key)

abbrev Cells := OrderedMap Cell Rule

def enter (cells : Cells) (cell : Cell) (rule : Rule) : Except Conflict Cells :=
  match cells.get? cell with
  | none => .ok (cells.insert cell rule)
  | some existing =>
    if existing = rule then .ok cells else .error ⟨cell, existing, rule⟩

/-- Enters a rule under some lookaheads. -/
def enterUnder (rule : Rule) (cells : Cells) : List Symbol → Except Conflict Cells
  | [] => .ok cells
  | lookahead :: lookaheads => do
    enterUnder rule (← enter cells ⟨rule.left, lookahead⟩ rule) lookaheads

end Table

namespace Analysis

/-- The lookaheads that predict a rule. -/
def predictions (a : Analysis) (rule : Rule) : List Symbol :=
  match a.alternativeFirst? rule.right with
  | none => []
  | some first =>
    first.nonEpsilon ++
      if first.nullable then ((a.follow? rule.left).getD ∅).toList else []

def enterRules (a : Analysis) (cells : Table.Cells) : List Rule → Except Conflict Table.Cells
  | [] => .ok cells
  | rule :: rules => do
    enterRules a (← Table.enterUnder rule cells (a.predictions rule)) rules

/-- Fails with the first conflict. -/
def table (a : Analysis) : Except Conflict Table := do
  let cells ← a.enterRules ∅ a.grammar.ruleList
  pure {
    start := a.grammar.start
    lookaheads := a.grammar.terminals ++ [.endMark]
    keys := OrderedSet.ofList a.grammar.keys
    cells := cells }

end Analysis
end LL1
