import LL1.Symbol

/-!
# Right-hand sides

An expression is a sequence of symbols. The sequence that holds nothing but the
empty-string symbol and the sequence without symbols both derive the empty
string, but they are different expressions and are displayed differently.
-/

namespace LL1

abbrev Expression := List Symbol

namespace Expression

def epsilon : Expression := [Symbol.epsilon]

def isEpsilon (e : Expression) : Bool := e = epsilon

/-- The empty-string symbol leads no expression. -/
def isLedBy (e : Expression) (s : Symbol) : Bool :=
  !s.isEpsilon && e.head? = some s

def withoutEpsilon (e : Expression) : Expression := e.filter fun s => !s.isEpsilon

/-- Joins two expressions. Empty-string symbols are dropped, and one of them is
put back if nothing else is left. -/
def join (e tail : Expression) : Expression :=
  match withoutEpsilon (e ++ tail) with
  | [] => epsilon
  | s :: symbols => s :: symbols

def display (e : Expression) : String := " ".intercalate (e.map Symbol.display)

end Expression

/-- One alternative of a nonterminal. -/
structure Rule where
  left : Symbol
  right : Expression
deriving DecidableEq

def Rule.display (r : Rule) : String := r.left.display ++ " -> " ++ r.right.display

end LL1
