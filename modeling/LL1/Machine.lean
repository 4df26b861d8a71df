import LL1.Table

/-!
# Runs of a table over tokens

A stack holds what is still to be derived. If its top is the lookahead, both are
consumed. If it is a row of the table, the rule of the cell under the lookahead
replaces it. Anything else ends the run. A run that empties its stack accepts if
exactly the tokens have been consumed.

Between two tokens the lookahead stays the same, and with it the rule of each row.
A row that comes up again while what replaced it is being derived does so forever.
Otherwise the expansions of one stack symbol form a tree that is no deeper than
there are rows and no wider than the longest right-hand side, and a bound on its
nodes bounds the moves.
-/

namespace LL1

/-- What the machine does about a stack top and a lookahead. -/
inductive Action where
  | consume
  | expand (rule : Rule)
  | unexpected
  | unpredicted
deriving DecidableEq

/-- Bounds by how much an action raises the stack. -/
def Action.growth : Action → Nat
  | expand rule => rule.right.length
  | _ => 0

namespace Table

def action (t : Table) (top lookahead : Symbol) : Action :=
  if top = lookahead then .consume
  else if t.isRow top then
    match t.get? top lookahead with
    | some rule => .expand rule
    | none => .unpredicted
  else .unexpected

theorem action_eq_consume_iff {t : Table} {top lookahead : Symbol} :
    t.action top lookahead = .consume ↔ top = lookahead := by
  grind [action]

/-- The length of the longest right-hand side. -/
def width (t : Table) : Nat := (t.cells.values.map fun rule => rule.right.length).max?.getD 0

/-- Bounds the moves that derive one stack symbol before the next token is read. -/
def expansionLimit (t : Table) : Nat := Nat.pow (t.width + 1) t.keys.size

end Table

/-- The state of a run. -/
structure Config where
  /-- What is still to be derived, the next symbol first. -/
  stack : List Symbol
  /-- The tokens that have not been consumed. -/
  unread : List Symbol
  /-- The end marks that have been consumed behind the last token. -/
  overrun : Nat
deriving DecidableEq

namespace Config

/-- Tokens are the texts of terminals. -/
def ofTokens (t : Table) (tokens : List String) : Config :=
  ⟨[t.start], tokens.map Symbol.terminal, 0⟩

def lookahead (c : Config) : Symbol := c.unread.head?.getD .endMark

/-- Whether the next move consumes a token. -/
def readsToken (c : Config) : Bool :=
  match c.stack, c.unread with
  | top :: _, token :: _ => top = token
  | _, _ => false

/-- Makes a move, if there is one that goes on. -/
def advance (t : Table) (c : Config) : Option Config :=
  match c.stack with
  | [] => none
  | top :: stack =>
    match t.action top c.lookahead with
    | .consume =>
      match c.unread with
      | [] => some { c with stack := stack, overrun := c.overrun + 1 }
      | _ :: unread => some { c with stack := stack, unread := unread }
    | .expand rule => some { c with stack := rule.right.withoutEpsilon ++ stack }
    | _ => none

theorem length_unread_of_advance {t : Table} {c d : Config} (h : c.advance t = some d) :
    d.unread.length + c.readsToken.toNat = c.unread.length := by
  obtain ⟨stack, unread, overrun⟩ := c
  cases stack with
  | nil => simp [advance] at h
  | cons top stack =>
    cases unread with
    | nil => grind [advance, readsToken]
    | cons token unread =>
      have h : t.action top token = .consume ↔ top = token := Table.action_eq_consume_iff
      by_cases heq : top = token <;> grind [advance, readsToken, lookahead]

end Config

structure Move where
  top : Symbol
  lookahead : Symbol
  action : Action
deriving DecidableEq

/-- How a run ends. -/
inductive Ending where
  /-- There was no token, and so no move. -/
  | noTokens
  /-- The last move could not go on. -/
  | stuck
  /-- The stack is empty. Tokens may be unread, or end marks consumed behind the
  last token. -/
  | finished (unread overrun : Nat)
  /-- The machine moves forever without consuming a token. -/
  | endless
deriving DecidableEq

structure Run where
  moves : List Move
  ending : Ending
deriving DecidableEq

namespace Run

def isAccepting (r : Run) : Bool := r.ending = .finished 0 0

/-- The rules of the expansions in order. -/
def trace (r : Run) : List Rule :=
  r.moves.filterMap fun move =>
    match move.action with
    | .expand rule => some rule
    | _ => none

def after (move : Move) (r : Run) : Run := { r with moves := move :: r.moves }

/-- Runs until a token has been read and then goes on with `next`, which receives a
bound on the height of the stack and the state. The stack is at most `height` symbols
high, and at most `limit` moves are left before the token. -/
def untilToken (t : Table) (next : Nat → Config → Run) (height limit : Nat) (c : Config) : Run :=
  match c.stack with
  | [] => ⟨[], .finished c.unread.length c.overrun⟩
  | top :: _ =>
    match limit with
    | 0 => ⟨[], .endless⟩
    | limit + 1 =>
      let action := t.action top c.lookahead
      .after ⟨top, c.lookahead, action⟩ <|
        match c.advance t with
        | none => ⟨[], .stuck⟩
        | some d =>
          let height := height + action.growth
          if c.readsToken then next height d else untilToken t next height limit d

/-- Runs from a state with at most `unread` tokens that have not been consumed and a
stack that is at most `height` symbols high. At most `perSymbol` moves derive one of
them before the next token is read. Behind the last token none is read, so nothing
has to go on there. -/
def within (t : Table) (perSymbol : Nat) : (unread height : Nat) → Config → Run
  | 0, height => untilToken t (fun _ _ => ⟨[], .endless⟩) height (height * perSymbol)
  | unread + 1, height => untilToken t (within t perSymbol unread) height (height * perSymbol)

def ofTokens (t : Table) (tokens : List String) : Run :=
  match tokens with
  | [] => ⟨[], .noTokens⟩
  | _ => within t t.expansionLimit tokens.length 1 (.ofTokens t tokens)

end Run
end LL1
