import LL1.Analysis.Follow

/-!
# Analysis of a grammar

An analysis holds the FIRST sets of all keys and alternatives and the FOLLOW sets
of all keys. It can be asked for FIRST of further symbols and expressions, whose
sets it then holds too.
-/

namespace LL1

structure Analysis where
  grammar : Grammar
  cache : FirstCache
  settled : Follow.Settled

/-- Fails with a key whose FIRST set depends on itself. -/
def Grammar.analyze (g : Grammar) : Except Symbol Analysis := do
  let cache ← g.firstCache
  pure { grammar := g, cache := cache, settled := g.followSets cache }

namespace Analysis

def first? (a : Analysis) (key : Symbol) : Option SymbolSet := a.cache.symbols.get? key

def alternativeFirst? (a : Analysis) (e : Expression) : Option SymbolSet :=
  a.cache.expressions.get? e

def follow? (a : Analysis) (s : Symbol) : Option SymbolSet := a.settled.follow.get? s

def nullable (a : Analysis) (key : Symbol) : Bool :=
  match a.first? key with
  | some first => first.nullable
  | none => false

/-- Runs a computation of FIRST sets and holds on to what it finishes. -/
def ask {α : Type} (a : Analysis) (query : FirstM α) : Except Symbol (α × Analysis) := do
  let (answer, cache) ← query.run a.cache
  pure (answer, { a with cache := cache })

def askSymbol (a : Analysis) (s : Symbol) : Except Symbol (SymbolSet × Analysis) :=
  a.ask (First.ofSymbol a.grammar a.grammar.keys s)

def askExpression (a : Analysis) (e : Expression) : Except Symbol (SymbolSet × Analysis) :=
  a.ask (First.ofExpression (First.ofSymbol a.grammar a.grammar.keys) e)

end Analysis
end LL1
