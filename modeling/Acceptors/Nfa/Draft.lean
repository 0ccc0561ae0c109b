import Acceptors.Nfa.Basic
import Acceptors.Validation

/-! Descriptions of nondeterministic automata that are given part by part. A later part
replaces an earlier one of its kind, except that the targets of a state and symbol add up. -/
namespace Acceptors.Nfa

open Validation

/-- The parts that have been given so far. -/
structure Draft where
  alphabet : Option Alphabet := none
  states : Option (SortedSet String) := none
  start : Option (SortedSet String) := none
  table : Option (SortedMap (String × Char) (SortedSet String)) := none
  accept : Option (SortedSet String) := none

/-- One part of a description. -/
inductive Edit where
  | alphabet (symbols : Alphabet)
  | states (names : List String)
  | start (names : List String)
  /-- More targets for a state and symbol. An empty list still makes an entry. -/
  | transition (source : String) (symbol : Char) (targets : List String)
  /-- The table is given, even if no entry follows. -/
  | noTransitions
  | accept (names : List String)

/-- The draft with one more part given. -/
def Draft.apply (draft : Draft) : Edit → Draft
  | .alphabet symbols => { draft with alphabet := some symbols }
  | .states names => { draft with states := some (SortedSet.ofList names) }
  | .start names => { draft with start := some (SortedSet.ofList names) }
  | .transition source symbol targets =>
    { draft with
      table := some (addTargets (draft.table.getD ∅) (source, symbol)
        (SortedSet.ofList targets)) }
  | .noTransitions => { draft with table := some (draft.table.getD ∅) }
  | .accept names => { draft with accept := some (SortedSet.ofList names) }

/-- The draft that results from giving parts in order. -/
def Draft.ofEdits (edits : List Edit) : Draft := edits.foldl Draft.apply {}

/-- The faults of one table entry. -/
def entryFaults (n : Nfa) (entry : (String × Char) × SortedSet String) :
    List ValidationError :=
  demand (entry.1.1 ∈ n.states) (.unknownState entry.1.1) ++
  demand (entry.1.2 ∈ n.alphabet) (.unknownSymbol entry.1.2) ++
  entry.2.toList.flatMap (fun r => demand (r ∈ n.states) (.unknownState r))

/-- The faults of an automaton: the start states in order, then the accept states, then the
entries of the table. -/
def faults (n : Nfa) : List ValidationError :=
  n.start.toList.flatMap (fun q => demand (q ∈ n.states) (.startStateNotInStates q)) ++
  n.accept.toList.flatMap (fun q => demand (q ∈ n.states) (.acceptStateNotInStates q)) ++
  n.table.entries.flatMap n.entryFaults

/-- Accept an automaton that is well formed, or report its first fault. -/
def validate (n : Nfa) : Except ValidationError Nfa := judge n.faults n

/-- The described automaton. All parts have to be given, and together they have to be well
formed. -/
def Draft.build (draft : Draft) : Except ValidationError Nfa := do
  let alphabet ← require "alphabet" draft.alphabet
  let states ← require "states" draft.states
  let start ← require "start_states" draft.start
  let table ← require "delta" draft.table
  let accept ← require "accept_states" draft.accept
  validate { alphabet, states, start, accept, table }

end Acceptors.Nfa
