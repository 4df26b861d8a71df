import LL1.LeftRecursion

/-!
# Elimination of left recursion

The keys are treated in order. Alternatives that start with an earlier key are
expanded with the final alternatives of that key. Then alternatives that start
with the key itself are moved to a helper, a new nonterminal that repeats what
followed the key and that every other alternative is continued with. The helpers
stand behind all keys. A grammar that is not left recursive stays as it is.
-/

namespace LL1

/-- A key with its alternatives. -/
abbrev Body := Symbol × List Expression

namespace Elimination

inductive Event where
  | unchanged
  | substituted (earlier into : Symbol) (alternatives : Nat)
  | introduced (helper key : Symbol)
deriving DecidableEq

/-- Expands the alternatives that start with `s` and puts them before the others. -/
def substitute (s : Symbol) (body alternatives : List Expression) : List Expression :=
  (alternatives.filter (·.isLedBy s)).flatMap
      (fun e => body.map fun replacement => replacement.join e.tail) ++
    alternatives.filter fun e => !e.isLedBy s

def expandLeading : List Body → List Expression → List Expression
  | [], alternatives => alternatives
  | earlier :: done, alternatives =>
    expandLeading done (substitute earlier.1 earlier.2 alternatives)

def substitutions (key : Symbol) : List Body → List Expression → List Event
  | [], _ => []
  | earlier :: done, alternatives =>
    let expanded := substitute earlier.1 earlier.2 alternatives
    let later := substitutions key done expanded
    if alternatives.any (·.isLedBy earlier.1) then
      .substituted earlier.1 key expanded.length :: later
    else later

/-- What follows the key in the alternatives that start with it. The alternative
that is the key alone adds nothing to the language and is left out. -/
def recursiveTails (key : Symbol) (alternatives : List Expression) : List Expression :=
  (alternatives.filter fun e => e.isLedBy key && decide (1 < e.length)).map List.tail

def otherAlternatives (key : Symbol) (alternatives : List Expression) : List Expression :=
  alternatives.filter fun e => !e.isLedBy key

/-- The first of a symbol and its primed forms that is not taken. Priming makes a
symbol longer, so one that has been passed over cannot come back. -/
def firstFree (taken : List Symbol) (s : Symbol) : Symbol :=
  if s ∈ taken then firstFree (taken.erase s) s.prime else s
termination_by taken.length
decreasing_by
  rename_i h
  have := List.length_pos_of_mem h
  rw [List.length_erase_of_mem h]
  omega

/-- The state between two keys: the final bodies and the helpers in order, the
symbols that a helper must not be called, and what has happened. -/
structure Progress where
  done : List Body
  helpers : List Body
  taken : List Symbol
  events : List Event

def step (p : Progress) (body : Body) : Progress :=
  let alternatives := expandLeading p.done body.2
  let events := p.events ++ substitutions body.1 p.done body.2
  let others := otherAlternatives body.1 alternatives
  match recursiveTails body.1 alternatives with
  | [] => { p with done := p.done ++ [(body.1, others)], events := events }
  | tail :: tails =>
    let helper := firstFree p.taken body.1.prime
    { done := p.done ++ [(body.1, others.map (·.join [helper]))]
      helpers := p.helpers ++
        [(helper, (tail :: tails).map (Expression.join · [helper]) ++ [Expression.epsilon])]
      taken := p.taken ++ [helper]
      events := events ++ [.introduced helper body.1] }

def run (g : Grammar) : Progress :=
  g.rules.entries.foldl step ⟨[], [], g.symbols.toList, []⟩

end Elimination

namespace Grammar

open Elimination

def withoutLeftRecursion (g : Grammar) : Grammar :=
  if g.isLeftRecursive then
    { g with rules := g.rules.insertMany ((run g).done ++ (run g).helpers) }
  else g

def eliminationEvents (g : Grammar) : List Event :=
  if g.isLeftRecursive then (run g).events else [.unchanged]

end Grammar
end LL1
