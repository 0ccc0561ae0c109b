import Acceptors.Name
import Acceptors.Nfa.Basic

/-! Renamed copies of automata. Before two automata are joined, the second gets new names for
the states that both use, so that the states of the joint automaton stay apart. -/
namespace Acceptors.Nfa

/-- The automaton in which every state has another name. -/
def rename (f : String → String) (n : Nfa) : Nfa where
  alphabet := n.alphabet
  states := n.states.map f
  start := n.start.map f
  accept := n.accept.map f
  table := SortedMap.ofList
    (n.table.entries.map fun entry => ((f entry.1.1, entry.1.2), entry.2.map f))

/-- New names for the states of `other` that `n` uses too, in state order. A new name is used
by neither automaton. -/
def newNames (n other : Nfa) : List (String × String) :=
  let shared := (other.states.filter fun q => decide (q ∈ n.states)).toList
  shared.zip (Name.freshAll (n.states ∪ other.states) shared)

/-- The new name of a state, or its own if it has no new one. -/
def nameIn (names : List (String × String)) (state : String) : String :=
  (names.lookup state).getD state

/-- A copy of `other` that has no state in common with `n`. -/
def disjointCopy (n other : Nfa) : Nfa := other.rename (nameIn (n.newNames other))

end Acceptors.Nfa
