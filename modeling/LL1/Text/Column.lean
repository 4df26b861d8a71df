/-!
# Columns

Widths are counted in characters.
-/

namespace LL1
namespace Text

/-- Moves a text to the right end of a column, which a longer text overflows. -/
def alignRight (width : Nat) (s : String) : String :=
  String.ofList (s.toList.leftpad width ' ')

theorem toList_alignRight (width : Nat) (s : String) :
    (alignRight width s).toList = List.replicate (width - s.length) ' ' ++ s.toList := by
  simp [alignRight, List.leftpad, String.length_toList]

/-- The width of the longest of some texts. -/
def maxWidth (ss : List String) : Nat := (ss.map String.length).max?.getD 0

/-- The width of each column of a grid whose lines are equally long. -/
def columnWidths : List (List String) → List Nat
  | [] => []
  | header :: rows =>
    rows.foldl (fun widths row => List.zipWith max widths (row.map String.length))
      (header.map String.length)

def gridLine (widths : List Nat) (line : List String) : String :=
  " | ".intercalate (List.zipWith alignRight widths line)

/-- Writes a grid line by line with its columns under each other. -/
def grid (lines : List (List String)) : String :=
  "\n".intercalate (lines.map (gridLine (columnWidths lines)))

end Text
end LL1
