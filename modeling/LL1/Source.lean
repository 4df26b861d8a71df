import LL1.Bnf.Document
import LL1.LeftRecursion.Elimination
import LL1.Table

/-!
# From a grammar text to its table

The stages are reading, elimination of left recursion unless it is to be kept,
analysis and the table. The first stage that fails decides the failure.
-/

namespace LL1

inductive Failure where
  | unreadable (error : Bnf.Error)
  | cyclicFirst (key : Symbol)
  | conflict (conflict : Conflict)
deriving DecidableEq

def Failure.message : Failure → String
  | unreadable error => error.message
  | cyclicFirst key =>
    "FIRST(" ++ key.display ++
      ") depends on itself through nullable prefixes; the grammar is still left recursive"
  | conflict c =>
    "the grammar is not LL(1): cell " ++ c.cell.display ++ " holds `" ++ c.existing.display ++
      "` and would also receive `" ++ c.incoming.display ++ "`"

def Grammar.analysis (g : Grammar) : Except Failure Analysis :=
  g.analyze.mapError .cyclicFirst

def Grammar.table (g : Grammar) : Except Failure Table := do
  (← g.analysis).table.mapError .conflict

structure Source where
  text : String
  keepLeftRecursion : Bool

namespace Source

def read (source : Source) : Except Failure Grammar :=
  (Bnf.read source.text).mapError .unreadable

def prepare (source : Source) (g : Grammar) : Grammar :=
  if source.keepLeftRecursion then g else g.withoutLeftRecursion

def grammar (source : Source) : Except Failure Grammar := source.read.map source.prepare

def analysis (source : Source) : Except Failure Analysis := do
  (← source.grammar).analysis

def table (source : Source) : Except Failure Table := do
  (← source.grammar).table

end Source
end LL1
