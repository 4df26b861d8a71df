import LL1.Text.Latex
import Mathlib.Data.List.Forall2

/-!
# How LaTeX texts are read

A text is read from left to right, and a backslash takes the next character with it. Rows
are separated by two backslashes and the cells of a row by ampersands, and braces nest. A
text that is put into a cell must keep to it: it may not end with a backslash that takes a
character of what follows, hold a separator or leave a brace open. Escaped text does none
of that, whatever it was made from.
-/

namespace LL1
namespace Text
namespace Markup

/-- What is read at one place: a character by itself or behind a backslash. -/
inductive Mark where
  | bare (c : Char)
  | escaped (c : Char)
deriving DecidableEq

/-- There is nothing to read for a backslash at the end. -/
def read : List Char → Option (List Mark)
  | [] => some []
  | ['\\'] => none
  | '\\' :: c :: cs => (read cs).map (.escaped c :: ·)
  | c :: cs => (read cs).map (.bare c :: ·)

def separator : Mark := .bare '&'

def rowEnd : Mark := .escaped '\\'

/-- The depth of open braces behind a mark. A brace can only be closed if one is open. -/
def nest (depth : Nat) (mark : Mark) : Option Nat :=
  if mark = .bare '\x7b' then some (depth + 1)
  else if mark = .bare '\x7d' then if depth = 0 then none else some (depth - 1)
  else some depth

def IsBalanced (marks : List Mark) : Prop := marks.foldlM nest 0 = some 0

instance (marks : List Mark) : Decidable (IsBalanced marks) := inferInstanceAs (Decidable (_ = _))

/-- A text that stays in its row and has so many separators. -/
def RowText (count : Nat) (text : String) : Prop :=
  ∃ marks ∈ read text.toList,
    rowEnd ∉ marks ∧ marks.count separator = count ∧ IsBalanced marks

/-- A text whose rows have so many separators each. Its braces are balanced. -/
def RowsText (counts : List Nat) (text : String) : Prop :=
  ∃ marks ∈ read text.toList,
    (marks.splitOn rowEnd).map (·.count separator) = counts ∧ IsBalanced marks

variable {cs ds : List Char} {marks : List Mark} {m n d e : Nat} {s t : String}
  {counts : List Nat}

instance : Decidable (RowText n s) :=
  match h : read s.toList with
  | none => .isFalse fun ⟨_, hmarks, _⟩ => by simp [h] at hmarks
  | some marks =>
    decidable_of_iff (rowEnd ∉ marks ∧ marks.count separator = n ∧ IsBalanced marks) <| by
      simp [RowText, h]

theorem read_escaped (c : Char) (cs : List Char) :
    read ('\\' :: c :: cs) = (read cs).map (.escaped c :: ·) := rfl

theorem read_bare {c : Char} (hc : c ≠ '\\') (cs : List Char) :
    read (c :: cs) = (read cs).map (.bare c :: ·) := by
  cases cs <;> simp [read, hc]

theorem read_append (h : read cs = some marks) : read (cs ++ ds) = (read ds).map (marks ++ ·) := by
  fun_induction read cs generalizing marks with
  | case1 =>
    obtain rfl := Option.some.inj h
    simp
  | case2 => cases h
  | case3 c cs ih =>
    obtain ⟨rest, hrest, rfl⟩ := Option.map_eq_some_iff.mp h
    show read ('\\' :: c :: (cs ++ ds)) = _
    rw [read_escaped, ih hrest, Option.map_map]
    rfl
  | case4 c cs hlast hnext ih =>
    have hc : c ≠ '\\' := by
      intro hc
      cases cs with
      | nil => exact hlast hc rfl
      | cons d cs => exact hnext d cs hc rfl
    obtain ⟨rest, hrest, rfl⟩ := Option.map_eq_some_iff.mp h
    rw [List.cons_append, read_bare hc, ih hrest, Option.map_map]
    rfl

/-! ## Braces -/

theorem IsBalanced.append {marks' : List Mark} (h : IsBalanced marks) (h' : IsBalanced marks') :
    IsBalanced (marks ++ marks') := by
  unfold IsBalanced at h h' ⊢
  rw [List.foldlM_append, h]
  exact h'

theorem RowText.append (hs : RowText m s) (ht : RowText n t) : RowText (m + n) (s ++ t) := by
  obtain ⟨marks, hmarks, hrow, hcount, hbalanced⟩ := hs
  obtain ⟨marks', hmarks', hrow', hcount', hbalanced'⟩ := ht
  refine ⟨marks ++ marks', ?_, ?_, ?_, hbalanced.append hbalanced'⟩
  · rw [String.toList_append, read_append hmarks, hmarks']
    rfl
  · simp [hrow, hrow']
  · rw [List.count_append, hcount, hcount']

/-- Two backslashes end a row. -/
theorem RowsText.append {counts' : List Nat} (hs : RowsText counts s) (ht : RowsText counts' t) :
    RowsText (counts ++ counts') (s ++ "\\\\" ++ t) := by
  obtain ⟨marks, hmarks, hcounts, hbalanced⟩ := hs
  obtain ⟨marks', hmarks', hcounts', hbalanced'⟩ := ht
  refine ⟨marks ++ rowEnd :: marks', ?_, ?_, ?_⟩
  · have hlist : (s ++ "\\\\" ++ t).toList = s.toList ++ '\\' :: '\\' :: t.toList := by simp
    rw [hlist, read_append hmarks, read_escaped, hmarks']
    rfl
  · rw [List.splitOn_append_cons_self, List.map_append, hcounts, hcounts']
  · have hend : IsBalanced [rowEnd] := rfl
    exact hbalanced.append (hend.append hbalanced')

/-- A text that looks like the end of a row, a separator and an open brace. -/
example : Latex.escape "\\\\ & \x7b" =
    "\\textbackslash\x7b\x7d\\textbackslash\x7b\x7d \\& \\\x7b" := by decide +kernel

end Markup
end Text
end LL1
