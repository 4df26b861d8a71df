/-!
# Blank characters

The Unicode property `White_Space`: the characters that separate the elements of
a grammar text and that are trimmed from both ends of a line.
-/

namespace LL1
namespace Text

/-- The code points with the property, as inclusive ranges in ascending order. -/
def blankRanges : List (Nat × Nat) :=
  [(0x09, 0x0d), (0x20, 0x20), (0x85, 0x85), (0xa0, 0xa0), (0x1680, 0x1680),
    (0x2000, 0x200a), (0x2028, 0x2029), (0x202f, 0x202f), (0x205f, 0x205f), (0x3000, 0x3000)]

def isBlank (c : Char) : Bool :=
  blankRanges.any fun range => range.1 ≤ c.toNat && c.toNat ≤ range.2

theorem isBlank_of_isWhitespace {c : Char} (h : c.isWhitespace) : isBlank c := by
  simp only [Char.isWhitespace, Bool.or_eq_true, decide_eq_true_eq] at h
  rcases h with ((rfl | rfl) | rfl) | rfl <;> rfl

def trimLeft (cs : List Char) : List Char := cs.dropWhile isBlank

theorem trimLeft_eq_nil_iff {cs : List Char} : trimLeft cs = [] ↔ ∀ c ∈ cs, isBlank c := by
  induction cs with
  | nil => simp [trimLeft]
  | cons c cs ih =>
    by_cases h : isBlank c <;> simp_all [trimLeft]

theorem not_isBlank_of_trimLeft {cs ds : List Char} {d : Char} (h : trimLeft cs = d :: ds) :
    isBlank d = false := by
  induction cs with
  | nil => simp [trimLeft] at h
  | cons c cs ih => by_cases hc : isBlank c <;> simp_all [trimLeft]

/-- The text without the blanks at its two ends. -/
def trim (cs : List Char) : List Char := (trimLeft (trimLeft cs).reverse).reverse

theorem trim_eq_nil_iff {cs : List Char} : trim cs = [] ↔ ∀ c ∈ cs, isBlank c := by
  simp only [trim, List.reverse_eq_nil_iff, trimLeft_eq_nil_iff, List.mem_reverse]
  constructor
  · intro h
    cases hcs : trimLeft cs with
    | nil => exact trimLeft_eq_nil_iff.mp hcs
    | cons d ds => exact absurd (h d (by simp [hcs])) (by simp [not_isBlank_of_trimLeft hcs])
  · exact fun h c hc => h c ((List.dropWhile_sublist _).mem hc)

end Text
end LL1
