import Acceptors.Pda.Basic
import Acceptors.Validation

/-! Descriptions of pushdown automata that are given part by part. A later part replaces an
earlier one of its kind, except that the moves of a key add up. -/
namespace Acceptors.Pda

open Validation

/-- The parts that have been given so far. -/
structure Draft where
  alphabet : Option Alphabet := none
  stackAlphabet : Option Alphabet := none
  initialItem : Option Char := none
  states : Option (SortedSet String) := none
  start : Option String := none
  table : Option (SortedMap Key (List Move)) := none
  acceptance : Option Acceptance := none
  stepLimit : Option Nat := some defaultStepLimit

/-- One part of a description. -/
inductive Edit where
  | alphabet (symbols : Alphabet)
  | stackAlphabet (items : Alphabet)
  | initialItem (item : Char)
  | states (names : List String)
  | start (name : String)
  /-- One more move for a key. A move that the key already has is not listed twice. -/
  | transition (key : Key) (move : Move)
  /-- The table is given, even if no move follows. -/
  | noTransitions
  | accept (names : List String)
  | acceptOnEmptyStack
  | stepLimit (limit : Option Nat)

/-- Put a move after the others of its key, unless it is among them. -/
def addMove (table : SortedMap Key (List Move)) (key : Key) (move : Move) :
    SortedMap Key (List Move) :=
  table.alter key fun present =>
    let moves := present.getD []
    if move ∈ moves then moves else moves ++ [move]

/-- The draft with one more part given. -/
def Draft.apply (draft : Draft) : Edit → Draft
  | .alphabet symbols => { draft with alphabet := some symbols }
  | .stackAlphabet items => { draft with stackAlphabet := some items }
  | .initialItem item => { draft with initialItem := some item }
  | .states names => { draft with states := some (SortedSet.ofList names) }
  | .start name => { draft with start := some name }
  | .transition key move => { draft with table := some (addMove (draft.table.getD ∅) key move) }
  | .noTransitions => { draft with table := some (draft.table.getD ∅) }
  | .accept names => { draft with acceptance := some (.finalState (SortedSet.ofList names)) }
  | .acceptOnEmptyStack => { draft with acceptance := some .emptyStack }
  | .stepLimit limit => { draft with stepLimit := limit }

/-- The draft that results from giving parts in order. -/
def Draft.ofEdits (edits : List Edit) : Draft := edits.foldl Draft.apply {}

/-- The faults of the accept states, in order. -/
def acceptanceFaults (p : Pda) : List ValidationError :=
  match p.acceptance with
  | .finalState accept =>
    accept.toList.flatMap fun q => demand (q ∈ p.states) (.acceptStateNotInStates q)
  | .emptyStack => []

/-- The faults of one move: its target, then the items it pushes. -/
def moveFaults (p : Pda) (move : Move) : List ValidationError :=
  demand (move.state ∈ p.states) (.unknownState move.state) ++
  move.push.flatMap fun item => demand (item ∈ p.stackAlphabet) (.unknownStackSymbol item)

/-- The faults of one key and its moves. That a deterministic automaton has several moves for
the key comes last. -/
def entryFaults (p : Pda) (entry : Key × List Move) : List ValidationError :=
  demand (entry.1.1 ∈ p.states) (.unknownState entry.1.1) ++
  (entry.1.2.1.toList.flatMap fun a => demand (a ∈ p.alphabet) (.unknownSymbol a)) ++
  demand (entry.1.2.2 ∈ p.stackAlphabet) (.unknownStackSymbol entry.1.2.2) ++
  entry.2.flatMap p.moveFaults ++
  demand (p.deterministic = true → entry.2.length ≤ 1)
    (.nondeterministicTransition entry.1.1 entry.1.2.1 entry.1.2.2)

/-- The faults of an automaton: the start state, the initial stack item, the accept states,
then the keys of the table in order. -/
def faults (p : Pda) : List ValidationError :=
  demand (p.start ∈ p.states) (.startStateNotInStates p.start) ++
  demand (p.initialItem ∈ p.stackAlphabet)
    (.initialStackItemNotInStackAlphabet p.initialItem) ++
  p.acceptanceFaults ++
  p.table.entries.flatMap p.entryFaults

/-- Accept an automaton that is well formed, or report its first fault. -/
def validate (p : Pda) : Except ValidationError Pda := judge p.faults p

/-- The described automaton. All parts but the step limit have to be given, and together they
have to be well formed. -/
def Draft.build (draft : Draft) (deterministic : Bool) : Except ValidationError Pda := do
  let alphabet ← require "alphabet" draft.alphabet
  let stackAlphabet ← require "stack_alphabet" draft.stackAlphabet
  let initialItem ← require "initial_stack_item" draft.initialItem
  let states ← require "states" draft.states
  let start ← require "start_state" draft.start
  let table ← require "delta" draft.table
  let acceptance ← require "accept_states" draft.acceptance
  validate
    { alphabet, stackAlphabet, initialItem, states, start, acceptance, table, deterministic
      stepLimit := draft.stepLimit }

end Acceptors.Pda
