import Acceptors.Dfa.Basic
import Acceptors.Validation

/-! Descriptions of deterministic automata that are given part by part. A later part replaces
an earlier one of its kind, except that transitions add up. -/
namespace Acceptors.Dfa

open Validation

/-- The parts that have been given so far. -/
structure Draft where
  alphabet : Option Alphabet := none
  states : Option (SortedSet String) := none
  start : Option String := none
  table : Option (SortedMap (String × Char) String) := none
  accept : Option (SortedSet String) := none

/-- One part of a description. -/
inductive Edit where
  | alphabet (symbols : Alphabet)
  | states (names : List String)
  | start (name : String)
  /-- Entries for the table, of which the last for a state and symbol counts. An empty list
  still gives the table. -/
  | transitions (entries : List (String × Char × String))
  | accept (names : List String)

/-- The draft with one more part given. -/
def Draft.apply (draft : Draft) : Edit → Draft
  | .alphabet symbols => { draft with alphabet := some symbols }
  | .states names => { draft with states := some (SortedSet.ofList names) }
  | .start name => { draft with start := some name }
  | .transitions entries =>
    { draft with
      table := some ((draft.table.getD ∅).insertAll
        (entries.map fun entry => ((entry.1, entry.2.1), entry.2.2))) }
  | .accept names => { draft with accept := some (SortedSet.ofList names) }

/-- The draft that results from giving parts in order. -/
def Draft.ofEdits (edits : List Edit) : Draft := edits.foldl Draft.apply {}

/-- The faults of one table entry. -/
def entryFaults (d : Dfa) (entry : (String × Char) × String) : List ValidationError :=
  demand (entry.1.1 ∈ d.states) (.unknownState entry.1.1) ++
  demand (entry.1.2 ∈ d.alphabet) (.unknownSymbol entry.1.2) ++
  demand (entry.2 ∈ d.states) (.unknownState entry.2)

/-- The faults of an automaton: the start state, then the accept states in order, then the
missing entries by state and symbol, then the entries of the table in order. -/
def faults (d : Dfa) : List ValidationError :=
  demand (d.start ∈ d.states) (.startStateNotInStates d.start) ++
  d.accept.toList.flatMap (fun q => demand (q ∈ d.states) (.acceptStateNotInStates q)) ++
  d.states.toList.flatMap (fun q => d.alphabet.toList.flatMap fun a =>
    demand ((q, a) ∈ d.table) (.missingTransition q a)) ++
  d.table.entries.flatMap d.entryFaults

/-- Accept an automaton that is well formed, or report its first fault. -/
def validate (d : Dfa) : Except ValidationError Dfa := judge d.faults d

/-- The described automaton. All parts have to be given, and together they have to be well
formed. -/
def Draft.build (draft : Draft) : Except ValidationError Dfa := do
  let alphabet ← require "alphabet" draft.alphabet
  let states ← require "states" draft.states
  let start ← require "start_state" draft.start
  let table ← require "delta" draft.table
  let accept ← require "accept_states" draft.accept
  validate { alphabet, states, start, accept, table }

end Acceptors.Dfa
