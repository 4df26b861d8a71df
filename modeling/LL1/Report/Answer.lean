import LL1.Machine
import LL1.Report.Summary
import LL1.Source
import LL1.Tokens

/-!
# Answers as JSON texts

An answer is either what was asked for or the message of what failed.
-/

namespace LL1
namespace Report
namespace Answer

def ofFailure (failure : Failure) : Json := .object [("error", .string failure.message)]

def ofRun (r : Run) : Json :=
  .object [
    ("accepted", .bool r.isAccepting),
    ("trace", .strings (r.trace.map Rule.display))]

def ofResult {α : Type} (write : α → Json) : Except Failure α → String
  | .ok a => (write a).compact
  | .error failure => (ofFailure failure).compact

/-- The FIRST and FOLLOW sets of a grammar text without its left recursion. -/
def summary (text : String) : String :=
  ofResult (fun a => Summary.json (Summary.ofAnalysis a)) (Source.analysis ⟨text, false⟩)

/-- The run over a token file of the table of a grammar text without its left
recursion. -/
def run (text tokens : String) : String :=
  ofResult (fun t => ofRun (Run.ofTokens t (Tokens.read tokens))) (Source.table ⟨text, false⟩)

end Answer
end Report
end LL1
