import LL1.Machine
import LL1.Source

/-!
# The journal of a run

Every stage leaves records of what it has done. A stage that fails leaves none,
and the stages behind it do not take place.
-/

namespace LL1

inductive Level where
  | debug
  | info
  | trace
deriving DecidableEq

def Level.name : Level → String
  | debug => "DEBUG"
  | info => "INFO"
  | trace => "TRACE"

structure Record where
  level : Level
  message : String

def Record.line (r : Record) : String := r.level.name ++ " " ++ r.message

namespace Journal

def ofReading (g : Grammar) : List Record :=
  [⟨.debug, "parsed " ++ toString g.rules.size ++ " nonterminals, start symbol " ++
    g.start.display⟩]

def ofEvent : Elimination.Event → Record
  | .unchanged => ⟨.debug, "no left recursion, grammar kept as is"⟩
  | .substituted earlier into alternatives =>
    ⟨.debug, "substituted " ++ earlier.display ++ " into " ++ into.display ++ ": " ++
      toString alternatives ++ " alternatives"⟩
  | .introduced helper key =>
    ⟨.info, "introduced " ++ helper.display ++ " to remove left recursion on " ++ key.display⟩

def ofElimination (g : Grammar) : List Record := g.eliminationEvents.map ofEvent

def ofAnalysis (a : Analysis) : List Record :=
  [⟨.debug, "FOLLOW sets settled after " ++ toString a.settled.rounds ++ " rounds"⟩]

def ofTable (t : Table) : List Record :=
  [⟨.debug, "LL(1) table has " ++ toString t.size ++ " occupied cells"⟩]

def ofMove (move : Move) : List Record :=
  let seen : Record :=
    ⟨.trace, "stack top " ++ move.top.display ++ ", input " ++ move.lookahead.display⟩
  match move.action with
  | .consume | .expand _ => [seen]
  | .unexpected =>
    [seen, ⟨.debug, "expected " ++ move.top.display ++ ", found " ++ move.lookahead.display⟩]
  | .unpredicted =>
    [seen, ⟨.debug, "no prediction for " ++ move.top.display ++ " on " ++
      move.lookahead.display⟩]

def ofEnding : Ending → List Record
  | .noTokens => [⟨.debug, "empty token stream, rejected"⟩]
  | .finished unread overrun =>
    if unread = 0 ∧ overrun = 0 then []
    else [⟨.debug, "derivation finished with " ++ toString unread ++ " unread tokens"⟩]
  | .stuck | .endless => []

def ofRun (r : Run) : List Record :=
  r.moves.flatMap ofMove ++ ofEnding r.ending

/-- The records behind the reading and elimination of a grammar. -/
def ofGrammar (g : Grammar) (tokens : List String) : List Record :=
  match g.analyze with
  | .error _ => []
  | .ok a =>
    ofAnalysis a ++
      match a.table with
      | .error _ => []
      | .ok t => ofTable t ++ ofRun (Run.ofTokens t tokens)

def ofSource (source : Source) (tokens : List String) : List Record :=
  match source.read with
  | .error _ => []
  | .ok g =>
    ofReading g ++ (if source.keepLeftRecursion then [] else ofElimination g) ++
      ofGrammar (source.prepare g) tokens

end Journal
end LL1
