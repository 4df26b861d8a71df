import LL1.Report.Format
import LL1.Report.Formula
import LL1.Table
import LL1.Text.Column
import LL1.Text.Json

/-!
# Prediction tables
-/

namespace LL1
namespace Report
namespace Predictions

def plainCell : Option Rule → String
  | some rule => "-> " ++ rule.right.display
  | none => ""

def plain (t : Table) : String :=
  Text.grid <|
    ("" :: t.lookaheads.map Symbol.display) ::
      t.keys.toList.map fun key => key.display :: (t.row key).map plainCell

def latexCell (alphabet : OrderedSet Symbol) : Option Rule → String
  | some rule => ruleFormula alphabet rule
  | none => ""

def latexHeader (t : Table) : String :=
  " & ".intercalate <|
    ("\\[\\begin\x7barray\x7d\x7bc" ++
        String.join (t.lookaheads.map fun _ => "|l") ++ "\x7d\n") ::
      t.lookaheads.map fun lookahead => Text.Latex.upright lookahead.content

def latexLine (t : Table) (alphabet : OrderedSet Symbol) (key : Symbol) : String :=
  " & ".intercalate <|
    Text.Latex.escape key.content :: (t.row key).map (latexCell alphabet)

def latex (t : Table) : String :=
  let alphabet := OrderedSet.ofList t.lookaheads
  latexHeader t ++ "\\\\\\hline\n" ++
    lineEnd.intercalate (t.keys.toList.map (latexLine t alphabet)) ++
    "\n\\end\x7barray\x7d\\]"

def jsonCell : Option Rule → Json
  | some rule => .string rule.display
  | none => .null

def json (t : Table) : Json :=
  .object [
    ("terminals", .strings (t.lookaheads.map Symbol.display)),
    ("rows", .array (t.keys.toList.map fun key =>
      .object [
        ("non_terminal", .string key.display),
        ("rules", .array ((t.row key).map jsonCell))]))]

end Predictions

def predictions (format : Format) (t : Table) : String :=
  match format with
  | .plain => Predictions.plain t
  | .latex => Predictions.latex t
  | .json => (Predictions.json t).compact

end Report
end LL1
