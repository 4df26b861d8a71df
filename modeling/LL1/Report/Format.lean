/-!
# Output formats
-/

namespace LL1
namespace Report

inductive Format where
  | plain
  | latex
  | json
deriving DecidableEq

/-- Ends a line of a LaTeX table. -/
def lineEnd : String := "\\\\\n"

end Report
end LL1
