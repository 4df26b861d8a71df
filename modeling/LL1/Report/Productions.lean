import LL1.Grammar
import LL1.Report.Format
import LL1.Report.Formula
import LL1.Text.Column
import LL1.Text.Json
import LL1.Text.Replace

/-!
# The rules of a grammar
-/

namespace LL1
namespace Report
namespace Productions

open Text (alignRight maxWidth)

/-- The lines of one key. The alternatives stand under each other. -/
def plainLines (width : Nat) (left : String) : List String → List String
  | [] => [alignRight width left ++ " ::="]
  | right :: rights =>
    (alignRight width left ++ " ::= " ++ right) ::
      rights.map fun right => alignRight width "" ++ "   | " ++ right

def plain (g : Grammar) : String :=
  let width := maxWidth (g.keys.map Symbol.display)
  "\n".intercalate <| g.rules.entries.flatMap fun entry =>
    plainLines width entry.1.display (entry.2.map Expression.display)

/-- The arrow in a column of its own. -/
def arrowColumn : String := " & \\rightarrow & "

/-- The lines of one key. A key without alternatives derives nothing. -/
def latexLines (terminals : OrderedSet Symbol) (left : Symbol) : List Expression → List String
  | [] => [Text.Latex.escape left.display ++ arrowColumn ++ "\\emptyset"]
  | right :: rights =>
    (right :: rights).map fun right =>
      Text.replaceFirst arrow arrowColumn (ruleFormula terminals ⟨left, right⟩)

def latex (g : Grammar) : String :=
  let terminals := OrderedSet.ofList g.terminals
  lineEnd.intercalate <|
    "\\[\\begin\x7barray\x7d\x7bcll\x7d" ::
      g.rules.entries.flatMap (fun entry => latexLines terminals entry.1 entry.2) ++
      ["\\end\x7barray\x7d\\]"]

def json (g : Grammar) : Json :=
  .object [("productions", .array (g.rules.entries.map fun entry =>
    .object [
      ("left", .string entry.1.display),
      ("rights", .strings (entry.2.map Expression.display))]))]

end Productions

def productions (format : Format) (g : Grammar) : String :=
  match format with
  | .plain => Productions.plain g
  | .latex => Productions.latex g
  | .json => (Productions.json g).compact

end Report
end LL1
