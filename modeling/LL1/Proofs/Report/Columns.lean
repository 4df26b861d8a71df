import LL1.Proofs.Grammar
import LL1.Proofs.Text.Markup
import LL1.Report.Predictions
import LL1.Report.Productions
import LL1.Report.Summary

/-!
# The columns of LaTeX tables

Whatever symbols are called, each of their names stays in the cell that it is written to,
so the separators of a table are those that the report puts between the cells. In the table
of the rules the arrow gets a column of its own. It is found as the first arrow of the
rule's text, and that is the right one: a backslash of escaped text is never followed by
the name of the arrow.
-/

namespace LL1
namespace Report

open Text (replaceFirstChars)
open Text.Latex (escape escapeChar escapeChars upright)
open Text.Markup

variable {alphabet : OrderedSet Symbol} {key : Symbol} {cs rest : List Char} {c : Char}
  {next : Option Char}

/-! ## The arrow between the columns -/

variable {t : Table}

def arrayOpening : String := "\\[\\begin\x7barray\x7d"

def arrayClosing : String := "\\end\x7barray\x7d\\]"

def tabularOpening : String := "\\begin\x7btabular\x7d"

/-- The number of columns that a specification lists. -/
def columns (specification : String) : Nat := specification.toList.countP Char.isAlpha

namespace Productions

def opening : String := arrayOpening ++ "\x7b" ++ "cll" ++ "\x7d"

end Productions

/-! ### The FIRST and FOLLOW sets -/

namespace Summary

def headings : String := "\nSymbol & Nullable & First & Follow"

def header : String := tabularOpening ++ "\x7b" ++ "c|c|c|c" ++ "\x7d" ++ headings

def body (a : Analysis) : String :=
  "\\hline\n" ++ ("\\\\" ++ "\n ").intercalate ((ofAnalysis a).map latexLine) ++ ""

end Summary

/-! ### The predictions -/

namespace Predictions

/-- A column for the keys, and one for each lookahead. -/
def specification (t : Table) : String := "c" ++ String.join (t.lookaheads.map fun _ => "|l")

/-- What stands before the first separator. -/
def opening (t : Table) : String :=
  arrayOpening ++ ("\x7b" ++ specification t ++ "\x7d") ++ "\n"

def headings (t : Table) : List String :=
  t.lookaheads.map fun lookahead => upright lookahead.content

def lines (t : Table) : List String :=
  t.keys.toList.map (latexLine t (OrderedSet.ofList t.lookaheads))

def body (t : Table) : String :=
  "\\hline\n" ++ ("\\\\" ++ "\n").intercalate (lines t) ++ ("\n" ++ arrayClosing)

end Predictions

end Report
end LL1
