/-!
# Text inside LaTeX

Escaping works character by character. Only a hyphen looks at what follows it:
two in a row would be set as a dash, so an empty group is put between them.
-/

namespace LL1
namespace Text
namespace Latex

def escapeChar (next : Option Char) : Char → String
  | '&' => "\\&"
  | '%' => "\\%"
  | '$' => "\\$"
  | '#' => "\\#"
  | '_' => "\\_"
  | '\x7b' => "\\\x7b"
  | '\x7d' => "\\\x7d"
  | '[' => "\x7b[\x7d"
  | ']' => "\x7b]\x7d"
  | '~' => "\\textasciitilde\x7b\x7d"
  | '^' => "\\textasciicircum\x7b\x7d"
  | '<' => "\\textless\x7b\x7d"
  | '>' => "\\textgreater\x7b\x7d"
  | '!' => "!\x7b\x7d"
  | '\\' => "\\textbackslash\x7b\x7d"
  | '-' => if next = some '-' then "-\x7b\x7d" else "-"
  | c => String.singleton c

def escapeChars : List Char → String
  | [] => ""
  | c :: cs => escapeChar cs.head? c ++ escapeChars cs

def escape (s : String) : String := escapeChars s.toList

/-- Sets a text upright inside a formula. -/
def upright (s : String) : String := "\\text\x7b" ++ escape s ++ "\x7d"

end Latex
end Text
end LL1
