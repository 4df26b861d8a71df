import LL1.Machine
import LL1.Report.Predictions
import LL1.Report.Productions
import LL1.Report.Summary
import LL1.Source
import LL1.Tokens

/-!
# The command

The command reads a grammar file and a token file, shows what it is asked to show
of the grammar and decides whether the tokens are a sentence of it. Nothing is
shown unless the grammar has a table.
-/

namespace LL1
namespace Command

inductive Shown where
  | productions
  | summary
  | predictions
deriving DecidableEq

structure Invocation where
  grammarPath : String
  tokensPath : String
  shown : List Shown
  format : Report.Format
  keepLeftRecursion : Bool

/-- Why a file cannot be read as text. -/
inductive Unreadable where
  | missing
  | notText
  | other (reason : String)

def Unreadable.message : Unreadable → String
  | missing => "No such file or directory (os error 2)"
  | notText => "stream did not contain valid UTF-8"
  | other reason => reason

inductive CommandError where
  | file (path : String) (reason : Unreadable)
  | grammar (failure : Failure)

def CommandError.message : CommandError → String
  | file path reason => "cannot read " ++ path ++ ": " ++ reason.message
  | grammar failure => failure.message

abbrev Files := String → Except Unreadable ByteArray

def readText (files : Files) (path : String) : Except CommandError String :=
  match files path with
  | .error reason => .error (.file path reason)
  | .ok bytes =>
    match String.fromUTF8? bytes with
    | none => .error (.file path .notText)
    | some text => .ok text

def shownText (format : Report.Format) (a : Analysis) (t : Table) : Shown → String
  | .productions => Report.productions format a.grammar
  | .summary => Report.summary format a
  | .predictions => Report.predictions format t

def verdict (r : Run) : String := if r.isAccepting then "YES" else "NO"

/-- The lines that the command prints. A shown text may be several of them. -/
def run (files : Files) (call : Invocation) : Except CommandError (List String) := do
  let text ← readText files call.grammarPath
  let tokens ← readText files call.tokensPath
  let source : Source := ⟨text, call.keepLeftRecursion⟩
  let a ← source.analysis.mapError .grammar
  let t ← (a.table.mapError Failure.conflict).mapError .grammar
  let r := Run.ofTokens t (Tokens.read tokens)
  pure (call.shown.map (shownText call.format a t) ++ r.trace.map Rule.display ++ [verdict r])

structure Outcome where
  code : Nat
  stdout : String
  stderr : String

def printed (lines : List String) : String := String.join (lines.map (· ++ "\n"))

def outcome (files : Files) (call : Invocation) : Outcome :=
  match run files call with
  | .ok lines => ⟨0, printed lines, ""⟩
  | .error e => ⟨1, "", printed ["error: " ++ e.message]⟩

end Command
end LL1
