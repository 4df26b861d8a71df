import LL1.Command.Arguments

/-!
# The program

Reads the files that the command asks for, runs it on their bytes and prints its
outcome.
-/

namespace LL1
namespace Command

def Unreadable.ofError : IO.Error → Unreadable
  | .noFileOrDirectory .. => .missing
  | .permissionDenied _ code details | .inappropriateType _ code details =>
    .other (details ++ " (os error " ++ toString code ++ ")")
  | e => .other (toString e)

def load (path : String) : IO (Except Unreadable ByteArray) := do
  match ← (IO.FS.readBinFile path).toBaseIO with
  | .ok bytes => pure (.ok bytes)
  | .error e => pure (.error (.ofError e))

def perform (call : Invocation) : IO UInt32 := do
  let grammar ← load call.grammarPath
  let tokens ← load call.tokensPath
  let o := outcome (fun path => if path = call.grammarPath then grammar else tokens) call
  (← IO.getStdout).putStr o.stdout
  (← IO.getStderr).putStr o.stderr
  pure o.code.toUInt32

end Command
end LL1

def main (arguments : List String) : IO UInt32 :=
  match LL1.Command.Invocation.ofArguments? arguments with
  | some call => LL1.Command.perform call
  | none => do
    (← IO.getStderr).putStr LL1.Command.usage
    pure 2
