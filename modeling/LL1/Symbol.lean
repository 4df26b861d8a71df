/-!
# Grammar symbols

A symbol is the text it is written with: a nonterminal keeps its angle brackets
and a terminal its quotation marks, so the two never coincide. Which symbols can
be replaced is not a matter of the symbol but of the grammar that holds it.
-/

namespace LL1

structure Symbol where
  content : String
deriving DecidableEq

namespace Symbol

@[ext]
theorem ext {a b : Symbol} (h : a.content = b.content) : a = b := by
  cases a
  cases b
  cases h
  rfl

/-- Symbols are ordered by their contents. -/
instance : Ord Symbol := ⟨compareOn content⟩

instance : Std.TransOrd Symbol := inferInstanceAs (Std.TransCmp (compareOn content))

instance : Std.LawfulEqOrd Symbol where
  eq_of_compare h := ext (Std.LawfulEqOrd.eq_of_compare h)

def nonTerminal (name : String) : Symbol := ⟨"<" ++ name ++ ">"⟩

def terminal (literal : String) : Symbol := ⟨"\"" ++ literal ++ "\""⟩

/-- The symbol that stands for the empty string. -/
def epsilon : Symbol := ⟨""⟩

/-- The lookahead behind the last token. -/
def endMark : Symbol := ⟨"$"⟩

def isEpsilon (s : Symbol) : Bool := s = epsilon

@[simp]
theorem isEpsilon_iff {s : Symbol} : s.isEpsilon ↔ s = epsilon := by
  simp [isEpsilon]

def display (s : Symbol) : String := if s.isEpsilon then "ε" else s.content

/-- A prime goes inside the closing bracket of a nonterminal and behind anything
else. -/
def prime (s : Symbol) : Symbol :=
  let cs := s.content.toList
  if cs.head? = some '<' ∧ cs.getLast? = some '>' then
    ⟨String.ofList cs.dropLast ++ "'>"⟩
  else
    ⟨s.content ++ "'"⟩

theorem length_prime (s : Symbol) :
    s.prime.content.toList.length = s.content.toList.length + 1 := by
  simp only [prime]
  split
  · rename_i h
    have hpos : 0 < s.content.toList.length :=
      List.length_pos_iff.mpr fun hnil => by simp [hnil] at h
    simp only [String.toList_append, String.toList_ofList, List.length_append,
      List.length_dropLast]
    have : "'>".toList.length = 2 := rfl
    omega
  · rw [String.toList_append, List.length_append]
    rfl

/-- The distinct symbols of a list in the order of their contents. -/
def sortDistinct (symbols : List Symbol) : List Symbol :=
  symbols.eraseDups.mergeSort fun a b => a.content ≤ b.content

end Symbol

end LL1
