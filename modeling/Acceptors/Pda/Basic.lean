import Acceptors.Alphabet
import Acceptors.Sorted.Map

/-! Pushdown automata over named states. A move is listed for a state, an input symbol or none,
and the item on top of the stack, which it replaces by any number of items. -/
namespace Acceptors

namespace Pda

/-- What a move does: the next state, and the items that replace the stack top. The last item
ends up on top. -/
structure Move where
  state : String
  push : List Char
deriving DecidableEq

/-- When a consumed word is accepted. -/
inductive Acceptance where
  /-- In one of these states, whatever the stack holds. -/
  | finalState (states : SortedSet String)
  /-- With nothing left on the stack, whatever the state. -/
  | emptyStack
deriving DecidableEq

/-- What moves are listed for: the state, the symbol that is read if any, and the item that is
popped. -/
abbrev Key := String × Option Char × Char

/-- The bound on explored configurations, unless a description sets another. -/
def defaultStepLimit : Nat := 1000000

end Pda

/-- A pushdown automaton, given by its parts. -/
structure Pda where
  alphabet : Alphabet
  stackAlphabet : Alphabet
  initialItem : Char
  states : SortedSet String
  start : String
  acceptance : Pda.Acceptance
  /-- The moves of each key, in the order in which a run tries them. -/
  table : SortedMap Pda.Key (List Pda.Move)
  /-- Whether the automaton promises at most one move for each key. -/
  deterministic : Bool
  /-- The bound on the configurations that a run explores. -/
  stepLimit : Option Nat
deriving DecidableEq

namespace Pda

/-- A move that uses declared names and items only. -/
structure Move.WellFormed (p : Pda) (move : Move) : Prop where
  state_mem : move.state ∈ p.states
  push_mem : ∀ item ∈ move.push, item ∈ p.stackAlphabet

/-- What every description of a pushdown automaton has to satisfy. -/
structure WellFormed (p : Pda) : Prop where
  start_mem : p.start ∈ p.states
  initial_mem : p.initialItem ∈ p.stackAlphabet
  accept_mem : ∀ accept, p.acceptance = .finalState accept → ∀ q ∈ accept, q ∈ p.states
  source_mem : ∀ key ∈ p.table, key.1 ∈ p.states
  symbol_mem : ∀ key ∈ p.table, ∀ a, key.2.1 = some a → a ∈ p.alphabet
  pop_mem : ∀ key ∈ p.table, key.2.2 ∈ p.stackAlphabet
  move_mem : ∀ key moves, p.table.get? key = some moves → ∀ move ∈ moves, move.WellFormed p
  at_most_one : p.deterministic = true →
    ∀ key moves, p.table.get? key = some moves → moves.length ≤ 1

/-- The moves of a key, in table order. -/
def moves (p : Pda) (state : String) (symbol : Option Char) (pop : Char) : List Move :=
  (p.table.get? (state, symbol, pop)).getD []

end Pda

end Acceptors
