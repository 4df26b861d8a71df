import LL1.Analysis.First

/-!
# FOLLOW sets

FOLLOW of the start symbol holds the end mark. Where a key stands in an
alternative, its FOLLOW set holds FIRST of what is behind it and, if that derives
the empty string, FOLLOW of the left side. The sets grow in rounds over all
alternatives until a round changes nothing.
-/

namespace LL1

abbrev FollowSets := OrderedMap Symbol SymbolSet

namespace Follow

def ofKey (follow : FollowSets) (s : Symbol) : SymbolSet := (follow.get? s).getD ∅

def extend (follow : FollowSets) (s : Symbol) (symbols : List Symbol) : FollowSets :=
  follow.insert s ((ofKey follow s).insertMany symbols)

/-- What is known when an alternative has been read from the right up to some
point: FIRST of what is behind that point, and whether that derives the empty
string. -/
structure Sweep where
  follow : FollowSets
  first : SymbolSet
  nullable : Bool

def Sweep.step (g : Grammar) (cache : FirstCache) (left s : Symbol) (sweep : Sweep) : Sweep :=
  let first := cache.ofSymbol g s
  let follow :=
    if g.isKey s then
      let follow := extend sweep.follow s sweep.first.toList
      if sweep.nullable && s ≠ left then extend follow s (ofKey follow left).toList else follow
    else sweep.follow
  { follow := follow
    first := if first.nullable then sweep.first.insertMany first.nonEpsilon else first
    nullable := sweep.nullable && first.nullable }

def ofAlternative (g : Grammar) (cache : FirstCache) (follow : FollowSets) (rule : Rule) :
    FollowSets :=
  (rule.right.foldr (Sweep.step g cache rule.left) ⟨follow, ∅, true⟩).follow

def round (g : Grammar) (cache : FirstCache) (follow : FollowSets) : FollowSets :=
  g.ruleList.foldl (ofAlternative g cache) follow

/-- Empty sets for the keys, and the end mark for the start symbol. -/
def initial (g : Grammar) : FollowSets :=
  extend (OrderedMap.ofList (g.keys.map fun key => (key, ∅))) g.start [.endMark]

/-- The sets reached after some rounds. -/
structure Settled where
  follow : FollowSets
  rounds : Nat

/-- Runs rounds until one changes nothing, which is counted too. -/
def settle (g : Grammar) (cache : FirstCache) : Nat → FollowSets → Settled
  | 0, follow => ⟨follow, 0⟩
  | budget + 1, follow =>
    let grown := round g cache follow
    if grown = follow then ⟨follow, 1⟩
    else
      let settled := settle g cache budget grown
      ⟨settled.follow, settled.rounds + 1⟩

/-- Every round but the last adds a symbol to a set. There is a set for each key
and one for the start symbol, and each holds symbols of alternatives and the end
mark. -/
def roundLimit (g : Grammar) : Nat := 1 + (g.keys.length + 1) * (g.occurring.size + 1)

end Follow

def Grammar.followSets (g : Grammar) (cache : FirstCache) : Follow.Settled :=
  Follow.settle g cache (Follow.roundLimit g) (Follow.initial g)

end LL1
