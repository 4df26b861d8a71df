import LL1.Analysis
import LL1.Report.Format
import LL1.Text.Json
import LL1.Text.Latex

/-!
# The FIRST and FOLLOW sets of a grammar

The sets are sorted by name, except that the empty string is written last.
-/

namespace LL1
namespace Report

structure KeySummary where
  name : String
  nullable : Bool
  first : List String
  follow : List String

namespace Summary

def sortedNames (symbols : List Symbol) : List String :=
  (symbols.map Symbol.display).mergeSort fun a b => a ≤ b

def ofKey (a : Analysis) (key : Symbol) : KeySummary where
  name := key.display
  nullable := a.nullable key
  first :=
    sortedNames ((a.first? key).getD ∅).nonEpsilon ++
      if a.nullable key then [Symbol.epsilon.display] else []
  follow := sortedNames ((a.follow? key).getD ∅).toList

def ofAnalysis (a : Analysis) : List KeySummary := a.grammar.keys.map (ofKey a)

def truth (b : Bool) : String := if b then "true" else "false"

def plainLine (s : KeySummary) : String :=
  " | ".intercalate [s.name, truth s.nullable, ", ".intercalate s.first, ", ".intercalate s.follow]

def plain (summaries : List KeySummary) : String :=
  "\n".intercalate (summaries.map plainLine)

def latexName (name : String) : String :=
  if name = Symbol.epsilon.display then "$\\epsilon$" else Text.Latex.escape name

def latexNames (names : List String) : String := "\\ ".intercalate (names.map latexName)

def latexLine (s : KeySummary) : String :=
  " & ".intercalate
    [Text.Latex.escape s.name, truth s.nullable, latexNames s.first, latexNames s.follow]

def latex (summaries : List KeySummary) : String :=
  "\\begin\x7btabular\x7d\x7bc|c|c|c\x7d\n" ++
    "Symbol & Nullable & First & Follow\\\\\\hline\n" ++
    (lineEnd ++ " ").intercalate (summaries.map latexLine) ++
    lineEnd ++ "\\end\x7btabular\x7d"

def json (summaries : List KeySummary) : Json :=
  .object [("data", .array (summaries.map fun s =>
    .object [
      ("name", .string s.name),
      ("nullable", .bool s.nullable),
      ("first", .strings s.first),
      ("follow", .strings s.follow)]))]

end Summary

def summary (format : Format) (a : Analysis) : String :=
  match format with
  | .plain => Summary.plain (Summary.ofAnalysis a)
  | .latex => Summary.latex (Summary.ofAnalysis a)
  | .json => (Summary.json (Summary.ofAnalysis a)).compact

end Report
end LL1
