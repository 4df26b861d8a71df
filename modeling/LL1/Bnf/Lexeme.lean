import LL1.Bnf.Fault
import LL1.Expression
import LL1.Text.Blank

/-!
# Right-hand texts

A right-hand text is a sequence of bars and elements with blanks anywhere between
them. An element is a nonterminal in angle brackets or a literal in quotation
marks, and everything between its delimiters belongs to it. The bars separate the
alternatives; one without elements derives the empty string.
-/

namespace LL1
namespace Bnf

open Text (isBlank)

/-- Splits a text at the first occurrence of a character, which is dropped. -/
def takeUntil (stop : Char) : List Char → Option (List Char × List Char)
  | [] => none
  | c :: cs =>
    if c = stop then some ([], cs)
    else (takeUntil stop cs).map fun found => (c :: found.1, found.2)

theorem takeUntil_eq_some_iff {stop : Char} {cs before rest : List Char} :
    takeUntil stop cs = some (before, rest) ↔
      cs = before ++ stop :: rest ∧ stop ∉ before := by
  induction cs generalizing before with
  | nil => simp [takeUntil]
  | cons c cs ih =>
    rw [takeUntil]
    split
    · cases before <;> grind
    · rw [Option.map_eq_some_iff]
      cases before <;> grind

theorem takeUntil_eq_none_iff {stop : Char} {cs : List Char} :
    takeUntil stop cs = none ↔ stop ∉ cs := by
  induction cs with
  | nil => simp [takeUntil]
  | cons c cs ih =>
    rw [takeUntil]
    split <;> grind [Option.map_eq_none_iff]

/-- Reads a nonterminal behind its opening bracket. -/
def readNonTerminal (cs : List Char) : Except Fault (Symbol × List Char) :=
  match takeUntil '>' cs with
  | none => .error .unterminatedNonTerminal
  | some (name, rest) =>
    if name = [] ∨ '<' ∈ name then .error (.invalidNonTerminal (String.ofList name))
    else .ok (.nonTerminal (String.ofList name), rest)

/-- Reads a literal behind its opening mark. The empty one is the empty string. -/
def readLiteral (cs : List Char) : Except Fault (Symbol × List Char) :=
  match takeUntil '"' cs with
  | none => .error .unterminatedLiteral
  | some ([], rest) => .ok (.epsilon, rest)
  | some (literal, rest) => .ok (.terminal (String.ofList literal), rest)

theorem length_takeUntil {stop : Char} {cs before rest : List Char}
    (h : takeUntil stop cs = some (before, rest)) : rest.length < cs.length := by
  have h := (takeUntil_eq_some_iff.mp h).1
  simp only [h, List.length_append, List.length_cons]
  omega

theorem length_readNonTerminal {cs rest : List Char} {s : Symbol}
    (h : readNonTerminal cs = .ok (s, rest)) : rest.length < cs.length := by
  grind [readNonTerminal, → length_takeUntil]

theorem length_readLiteral {cs rest : List Char} {s : Symbol}
    (h : readLiteral cs = .ok (s, rest)) : rest.length < cs.length := by
  grind [readLiteral, → length_takeUntil]

inductive Lexeme where
  | bar
  | element (s : Symbol)
deriving DecidableEq

/-- The number of bytes that a text takes in UTF-8. -/
def byteLength : List Char → Nat
  | [] => 0
  | c :: cs => c.utf8Size + byteLength cs

theorem byteLength_append (before rest : List Char) :
    byteLength (before ++ rest) = byteLength before + byteLength rest := by
  induction before with
  | nil => simp [byteLength]
  | cons c cs ih => rw [List.cons_append, byteLength, byteLength, ih, Nat.add_assoc]

/-- The column at which a final part of a text starts. -/
def columnOf (text rest : List Char) : Nat := byteLength text - byteLength rest + 1

theorem columnOf_append (before rest : List Char) :
    columnOf (before ++ rest) rest = byteLength before + 1 := by
  rw [columnOf, byteLength_append, Nat.add_sub_cancel]

/-- Reads the final part `rest` of a text. -/
def lexemes (text rest : List Char) : Except Fault (List Lexeme) :=
  match rest with
  | [] => .ok []
  | c :: cs =>
    if isBlank c then lexemes text cs
    else if c = '|' then (lexemes text cs).map (Lexeme.bar :: ·)
    else if c = '<' then
      match _ : readNonTerminal cs with
      | .error fault => .error fault
      | .ok (s, behind) => (lexemes text behind).map (Lexeme.element s :: ·)
    else if c = '"' then
      match _ : readLiteral cs with
      | .error fault => .error fault
      | .ok (s, behind) => (lexemes text behind).map (Lexeme.element s :: ·)
    else .error (.unexpected c (columnOf text (c :: cs)))
termination_by rest.length
decreasing_by
  · simp
  · simp
  · exact Nat.lt_succ_of_lt (length_readNonTerminal ‹_›)
  · exact Nat.lt_succ_of_lt (length_readLiteral ‹_›)

/-- The elements before the first bar, between two bars and behind the last one. -/
def splitAtBars : List Lexeme → List (List Symbol)
  | [] => [[]]
  | .bar :: rest => [] :: splitAtBars rest
  | .element s :: rest =>
    match splitAtBars rest with
    | [] => [[s]]
    | elements :: others => (s :: elements) :: others

theorem splitAtBars_ne_nil (found : List Lexeme) : splitAtBars found ≠ [] := by
  fun_cases splitAtBars found <;> simp

def ofElements : List Symbol → Expression
  | [] => .epsilon
  | s :: elements => s :: elements

def readAlternatives (text : List Char) : Except Fault (List Expression) :=
  (lexemes text text).map fun found => (splitAtBars found).map ofElements

end Bnf
end LL1
