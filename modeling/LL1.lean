import LL1.Command.Arguments
import LL1.Journal
import LL1.Main
import LL1.Report.Answer
import LL1.Proofs.Derivation
import LL1.Proofs.LeftRecursion.Chain
import LL1.Proofs.LeftRecursion.Rewriting
import LL1.Proofs.LeftRecursion.Frame
import LL1.Proofs.Language
import LL1.Proofs.LeftRecursion.Preservation
import LL1.Proofs.Analysis.Starts
import LL1.Proofs.Analysis.First
import LL1.Proofs.LeftRecursion.Expansion
import LL1.Proofs.LeftRecursion.Trace
import LL1.Proofs.LeftRecursion.Removal
import LL1.Proofs.Bnf.Shape
import LL1.Proofs.LeftRecursion.Collapse
import LL1.Proofs.Source
import LL1.Proofs.Analysis.Saturation
import LL1.Proofs.Analysis.Session
import LL1.Proofs.Analysis.Recall
import LL1.Proofs.Analysis.Failure
import LL1.Proofs.Analysis.Progress
import LL1.Proofs.Analysis.Termination
import LL1.Proofs.Analysis.Follow
import LL1.Proofs.Analysis.Following
import LL1.Proofs.Table
import LL1.Proofs.Conflict
import LL1.Proofs.Machine.Cost
import LL1.Proofs.Machine.Moves
import LL1.Proofs.Machine.Acceptance
import LL1.Proofs.Recognition
import LL1.Proofs.Leftmost
import LL1.Proofs.Machine.States
import LL1.Proofs.Trace
import LL1.Proofs.Text.Line
import LL1.Proofs.Bnf.Reading
import LL1.Proofs.Bnf.Spelling
import LL1.Proofs.Report.Productions
import LL1.Proofs.Report.Predictions
import LL1.Proofs.Report.Columns
import LL1.Proofs.Command
import LL1.Proofs.Halting
import LL1.Proofs.Bnf.Offsets
import LL1.Proofs.Bnf.FirstFault
import LL1.Proofs.Bnf.Naming
import LL1.Proofs.Bnf.Literals
import LL1.Proofs.Report.Rules
import LL1.Proofs.Tokens
