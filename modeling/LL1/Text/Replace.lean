/-!
# Replacing a part of a text

Only the first occurrence is replaced.
-/

namespace LL1
namespace Text

def replaceFirstChars (old new : List Char) : List Char → List Char
  | [] => []
  | c :: cs =>
    if old <+: c :: cs then new ++ (c :: cs).drop old.length
    else c :: replaceFirstChars old new cs

/-- Replaces a part that is not empty where it occurs first. -/
def replaceFirst (old new text : String) : String :=
  String.ofList (replaceFirstChars old.toList new.toList text.toList)

variable {old new cs : List Char} {c : Char}

end Text
end LL1
