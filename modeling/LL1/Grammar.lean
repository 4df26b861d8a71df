import LL1.Expression
import LL1.OrderedMap
import LL1.OrderedSet

/-!
# Grammars

A grammar gives each of its keys a list of alternatives. Both the order of the
keys and the order of the alternatives are the order of definition. The start
symbol is usually a key but need not be one.
-/

namespace LL1

structure Grammar where
  rules : OrderedMap Symbol (List Expression)
  start : Symbol
deriving DecidableEq

namespace Grammar

/-- The grammar whose only key is its start symbol, without alternatives. -/
def ofStart (start : Symbol) : Grammar where
  rules := OrderedMap.insert ∅ start []
  start := start

def keys (g : Grammar) : List Symbol := g.rules.keys

def isKey (g : Grammar) (s : Symbol) : Bool := s ∈ g.rules

/-- A symbol that is no key has no alternatives. -/
def alternatives (g : Grammar) (s : Symbol) : List Expression := (g.rules.get? s).getD []

/-- Appends alternatives to a key, which is added behind the others if it is new. -/
def add (g : Grammar) (left : Symbol) (rights : List Expression) : Grammar :=
  { g with rules := g.rules.insert left (g.alternatives left ++ rights) }

def ruleList (g : Grammar) : List Rule :=
  g.rules.entries.flatMap fun entry => entry.2.map (Rule.mk entry.1)

/-- The distinct symbols of the alternatives in order of appearance. -/
def occurring (g : Grammar) : OrderedSet Symbol :=
  OrderedSet.ofList g.rules.values.flatten.flatten

/-- The symbols of the alternatives that are neither keys nor the empty string. -/
def terminals (g : Grammar) : List Symbol :=
  g.occurring.toList.filter fun s => !s.isEpsilon && !g.isKey s

/-- The keys, then the other symbols of the alternatives. -/
def symbols (g : Grammar) : OrderedSet Symbol :=
  (OrderedSet.ofList g.keys).insertMany g.occurring.toList

/-- Two grammars agree if they start alike and give the same keys the same
alternatives in the same order, whatever the order of the keys. -/
def Agrees (g h : Grammar) : Prop := g.rules.Agrees h.rules ∧ g.start = h.start

instance (g h : Grammar) : Decidable (g.Agrees h) := inferInstanceAs (Decidable (_ ∧ _))

end Grammar

end LL1
