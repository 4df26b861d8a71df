import LL1.Bnf.Lexeme

/-!
# Lines of a grammar text

A line that starts with a bar continues the line before it with more
alternatives. Any other line is split at its first `::=`.
-/

namespace LL1
namespace Bnf

open Text (trim)

/-- Some alternatives of a nonterminal. -/
structure Definition where
  left : Symbol
  rights : List Expression
deriving DecidableEq

/-- Splits a line at its first `::=`, which is dropped. -/
def splitDefine : List Char → Option (List Char × List Char)
  | [] => none
  | ':' :: ':' :: '=' :: cs => some ([], cs)
  | c :: cs => (splitDefine cs).map fun found => (c :: found.1, found.2)

/-- Reads a trimmed left side. -/
def readLeft (cs : List Char) : Except Fault Symbol :=
  match cs with
  | [] => .error .emptyLeftSide
  | c :: inner =>
    if c = '<' ∧ inner.getLast? = some '>' then
      let name := inner.dropLast
      if name = [] ∨ '<' ∈ name ∨ '>' ∈ name then
        .error (.notSingleNonTerminal (String.ofList cs))
      else .ok (.nonTerminal (String.ofList name))
    else .error (.notNonTerminal (String.ofList cs))

/-- Reads a trimmed line that is not blank. `previous` is the left side of the
line before it. -/
def readDefinition (previous : Option Symbol) (line : List Char) : Except Fault Definition :=
  match line with
  | '|' :: text =>
    match previous with
    | none => .error .noLeftSide
    | some left => (readAlternatives text).map (Definition.mk left)
  | _ =>
    match splitDefine line with
    | none => .error .noDefine
    | some (before, text) => do
      let left ← readLeft (trim before)
      (readAlternatives text).map (Definition.mk left)

/-- Reads lines of which the first has the given number. -/
def readDefinitions (number : Nat) (previous : Option Symbol) :
    List (List Char) → Except Error (List Definition)
  | [] => .ok []
  | line :: lines =>
    match trim line with
    | [] => readDefinitions (number + 1) previous lines
    | c :: cs =>
      match readDefinition previous (c :: cs) with
      | .error fault => .error (.malformedLine number fault)
      | .ok definition =>
        (readDefinitions (number + 1) (some definition.left) lines).map (definition :: ·)

end Bnf
end LL1
