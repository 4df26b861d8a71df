import LL1.Command

/-!
# Arguments of the command

Two paths and some options in any order. Everything behind `--` is a path.
-/

namespace LL1
namespace Command

def usage : String :=
  "usage: ll1 GRAMMAR TOKENS [--show prod|nff|ll1]... [--format plain|latex|json]\n" ++
    "       [--keep-left-recursion]\n"

def Shown.ofName? : String → Option Shown
  | "prod" => some .productions
  | "nff" => some .summary
  | "ll1" => some .predictions
  | _ => none

def formatOfName? : String → Option Report.Format
  | "plain" => some .plain
  | "latex" => some .latex
  | "json" => some .json
  | _ => none

/-- The arguments that have been read. -/
structure Arguments where
  paths : List String
  shown : List Shown
  format : Option Report.Format
  keepLeftRecursion : Bool

namespace Arguments

def none : Arguments := ⟨[], [], .none, false⟩

def addShown (a : Arguments) (name : String) : Option Arguments :=
  (Shown.ofName? name).map fun shown => { a with shown := a.shown ++ [shown] }

/-- A format can be given only once. -/
def setFormat (a : Arguments) (name : String) : Option Arguments :=
  match a.format with
  | .some _ => .none
  | .none => (formatOfName? name).map fun format => { a with format := some format }

def read (a : Arguments) : List String → Option Arguments
  | [] => some a
  | "--" :: paths => some { a with paths := a.paths ++ paths }
  | "--keep-left-recursion" :: rest => read { a with keepLeftRecursion := true } rest
  | "--show" :: name :: rest | "-s" :: name :: rest => do read (← a.addShown name) rest
  | "--format" :: name :: rest | "-f" :: name :: rest => do read (← a.setFormat name) rest
  | argument :: rest =>
    match argument.splitOn "=" with
    | ["--show", name] => do read (← a.addShown name) rest
    | ["--format", name] => do read (← a.setFormat name) rest
    | _ =>
      if argument.startsWith "-" then .none
      else read { a with paths := a.paths ++ [argument] } rest

def invocation? (a : Arguments) : Option Invocation :=
  match a.paths with
  | [grammarPath, tokensPath] =>
    some ⟨grammarPath, tokensPath, a.shown, a.format.getD .plain, a.keepLeftRecursion⟩
  | _ => .none

end Arguments

def Invocation.ofArguments? (arguments : List String) : Option Invocation := do
  (← Arguments.none.read arguments).invocation?

end Command
end LL1
