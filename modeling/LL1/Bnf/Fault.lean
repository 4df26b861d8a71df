/-!
# What can be wrong with a grammar text
-/

namespace LL1
namespace Bnf

/-- What is wrong with a line. Columns count bytes of the right-hand text, from
one. -/
inductive Fault where
  | noLeftSide
  | noDefine
  | emptyLeftSide
  | notNonTerminal (left : String)
  | notSingleNonTerminal (left : String)
  | unterminatedNonTerminal
  | unterminatedLiteral
  | invalidNonTerminal (name : String)
  | unexpected (c : Char) (column : Nat)
deriving DecidableEq

def Fault.message : Fault → String
  | noLeftSide => "cannot find left side"
  | noDefine => "missing \"::=\""
  | emptyLeftSide => "empty left side"
  | notNonTerminal left => "left side `" ++ left ++ "` is not a <nonterminal>"
  | notSingleNonTerminal left => "left side `" ++ left ++ "` is not a single <nonterminal>"
  | unterminatedNonTerminal => "unterminated <nonterminal>"
  | unterminatedLiteral => "unterminated \"literal\""
  | invalidNonTerminal name => "invalid nonterminal `<" ++ name ++ ">`"
  | unexpected c column =>
    "unexpected character `" ++ String.singleton c ++ "` at column " ++ toString column

/-- Lines are numbered from one, blank lines included. -/
inductive Error where
  | malformedLine (number : Nat) (fault : Fault)
  | noRules
deriving DecidableEq

def Error.message : Error → String
  | malformedLine number fault => "Line " ++ toString number ++ ": " ++ fault.message
  | noRules => "the grammar does not define any rule"

end Bnf
end LL1
