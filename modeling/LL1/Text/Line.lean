/-!
# Lines

A line ends at a line feed, and a carriage return directly before it belongs to
the line end. Text after the last line feed is a line only if there is any.
-/

namespace LL1
namespace Text

def lines : List Char → List (List Char)
  | [] => []
  | '\n' :: cs => [] :: lines cs
  | '\r' :: '\n' :: cs => [] :: lines cs
  | c :: cs =>
    match lines cs with
    | [] => [[c]]
    | line :: rest => (c :: line) :: rest

theorem not_mem_lines {cs line : List Char} (h : line ∈ lines cs) : '\n' ∉ line := by
  fun_induction lines cs generalizing line <;> grind

end Text
end LL1
