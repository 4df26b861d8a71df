import LL1.Expression
import LL1.OrderedSet
import LL1.Text.Latex

/-!
# Rules in formulas

The symbols of an alphabet are set upright and other symbols as they are. The
empty string has a sign of its own.
-/

namespace LL1
namespace Report

def symbolFormula (alphabet : OrderedSet Symbol) (s : Symbol) : String :=
  if s.isEpsilon then "\\epsilon"
  else if s ∈ alphabet then Text.Latex.upright s.content
  else Text.Latex.escape s.content

def formula (alphabet : OrderedSet Symbol) (e : Expression) : String :=
  " \\ ".intercalate (e.map (symbolFormula alphabet))

/-- The arrow between the sides of a rule. -/
def arrow : String := " \\rightarrow "

def ruleFormula (alphabet : OrderedSet Symbol) (rule : Rule) : String :=
  Text.Latex.escape rule.left.content ++ arrow ++ formula alphabet rule.right

end Report
end LL1
