import LL1.Grammar

/-!
# FIRST sets

FIRST of a symbol that is no key is the symbol itself. FIRST of a key is the union
over its alternatives, and FIRST of a sequence is that of its leading symbol,
continued with what follows as long as the symbols derive the empty string. The
computation remembers what it has finished. It fails with the key that it meets
again while that key is still in progress.
-/

namespace LL1

abbrev SymbolSet := OrderedSet Symbol

namespace SymbolSet

/-- A FIRST set holds the empty string if what it describes derives it. -/
def nullable (first : SymbolSet) : Bool := Symbol.epsilon ∈ first

def nonEpsilon (first : SymbolSet) : List Symbol := first.toList.filter fun s => !s.isEpsilon

end SymbolSet

/-- The FIRST sets that are finished. -/
structure FirstCache where
  symbols : OrderedMap Symbol SymbolSet
  expressions : OrderedMap Expression SymbolSet

namespace FirstCache

def empty : FirstCache := ⟨∅, ∅⟩

def recordSymbol (cache : FirstCache) (s : Symbol) (first : SymbolSet) : FirstCache :=
  { cache with symbols := cache.symbols.insert s first }

def recordExpression (cache : FirstCache) (e : Expression) (first : SymbolSet) : FirstCache :=
  { cache with expressions := cache.expressions.insert e first }

end FirstCache

/-- A computation of FIRST sets, which fails with a key that needs itself. -/
abbrev FirstM := StateT FirstCache (Except Symbol)

namespace First

/-- Adds FIRST of a sequence to a set. -/
def ofSequence (ofSymbol : Symbol → FirstM SymbolSet) (found : SymbolSet) :
    List Symbol → FirstM SymbolSet
  | [] => pure (found.insert .epsilon)
  | s :: rest => do
    let first ← ofSymbol s
    let found := found.insertMany first.nonEpsilon
    if first.nullable then ofSequence ofSymbol found rest else pure found

def ofExpression (ofSymbol : Symbol → FirstM SymbolSet) (e : Expression) :
    FirstM SymbolSet := do
  match (← get).expressions.get? e with
  | some first => pure first
  | none =>
    let first ← ofSequence ofSymbol ∅ e
    modify (·.recordExpression e first)
    pure first

/-- Adds FIRST of some alternatives to a set. -/
def ofAlternatives (ofSymbol : Symbol → FirstM SymbolSet) (found : SymbolSet) :
    List Expression → FirstM SymbolSet
  | [] => pure found
  | e :: alternatives => do
    let first ← ofExpression ofSymbol e
    ofAlternatives ofSymbol (found.insertMany first.toList) alternatives

/-- The keys in `idle` are the ones that are not in progress. -/
def ofSymbol (g : Grammar) (idle : List Symbol) (s : Symbol) : FirstM SymbolSet := do
  if g.isKey s then
    match (← get).symbols.get? s with
    | some first => pure first
    | none =>
      if s ∈ idle then
        let first ← ofAlternatives (fun t => ofSymbol g (idle.erase s) t) ∅ (g.alternatives s)
        modify (·.recordSymbol s first)
        pure first
      else throw s
  else pure (OrderedSet.singleton s)
termination_by idle.length
decreasing_by
  rename_i h
  have := List.length_pos_of_mem h
  rw [List.length_erase_of_mem h]
  omega

def finishExpressions (g : Grammar) : List Expression → FirstM Unit
  | [] => pure ()
  | e :: alternatives => do
    let _ ← ofExpression (ofSymbol g g.keys) e
    finishExpressions g alternatives

/-- Finishes FIRST of some keys and of their alternatives. -/
def finishRules (g : Grammar) : List (Symbol × List Expression) → FirstM Unit
  | [] => pure ()
  | (left, alternatives) :: rules => do
    let _ ← ofSymbol g g.keys left
    finishExpressions g alternatives
    finishRules g rules

end First

/-- The FIRST sets of all keys and all alternatives. -/
def Grammar.firstCache (g : Grammar) : Except Symbol FirstCache := do
  let ((), cache) ← (First.finishRules g g.rules.entries).run .empty
  pure cache

/-- FIRST of a symbol as far as it is finished. -/
def FirstCache.ofSymbol (cache : FirstCache) (g : Grammar) (s : Symbol) : SymbolSet :=
  if g.isKey s then (cache.symbols.get? s).getD ∅ else OrderedSet.singleton s

end LL1
