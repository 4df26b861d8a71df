import LL1.Bnf.Definition
import LL1.Grammar
import LL1.Text.Line

/-!
# Grammar texts

A grammar text defines the grammar that starts at its first left side and gives
each left side, in order of first occurrence, the alternatives of all its lines.
-/

namespace LL1
namespace Bnf

def define (g : Grammar) (definitions : List Definition) : Grammar :=
  definitions.foldl (fun g definition => g.add definition.left definition.rights) g

def read (text : String) : Except Error Grammar := do
  match ← readDefinitions 1 none (Text.lines text.toList) with
  | [] => .error .noRules
  | first :: others => .ok (define (.ofStart first.left) (first :: others))

end Bnf
end LL1
