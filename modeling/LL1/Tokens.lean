import LL1.Text.Blank
import LL1.Text.Line

/-!
# Token files

A token file holds one token per line. Blanks around a token do not belong to it
and blank lines hold none.
-/

namespace LL1
namespace Tokens

def ofLines (lines : List (List Char)) : List String :=
  ((lines.map Text.trim).filter fun token => !token.isEmpty).map String.ofList

def read (source : String) : List String := ofLines (Text.lines source.toList)

end Tokens
end LL1
