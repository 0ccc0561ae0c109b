import Acceptors.Alphabet
import Acceptors.Sorted.Map

/-! Deterministic finite automata over named states. The transition table of a well-formed
automaton is total over its states and symbols, so that a run always has a next state. -/
namespace Acceptors

/-- A deterministic finite automaton, given by its parts. -/
structure Dfa where
  alphabet : Alphabet
  states : SortedSet String
  start : String
  accept : SortedSet String
  /-- The target of each pair of state and symbol. -/
  table : SortedMap (String × Char) String
deriving DecidableEq

namespace Dfa

/-- What every description of a deterministic automaton has to satisfy: all names are
declared, and the table has exactly one target for each state and symbol. -/
structure WellFormed (d : Dfa) : Prop where
  start_mem : d.start ∈ d.states
  accept_mem : ∀ q ∈ d.accept, q ∈ d.states
  mem_table : ∀ q a, (q, a) ∈ d.table ↔ q ∈ d.states ∧ a ∈ d.alphabet
  target_mem : ∀ q a r, d.table.get? (q, a) = some r → r ∈ d.states

/-- The target of a state on a symbol, if the table has one. -/
def next? (d : Dfa) (state : String) (symbol : Char) : Option String :=
  d.table.get? (state, symbol)

/-- The next state of a run. Without an entry the state stays as it is; the table of a
well-formed automaton has an entry for every symbol of the alphabet. -/
def next (d : Dfa) (state : String) (symbol : Char) : String :=
  (d.next? state symbol).getD state

/-- Continue a run from a state. Each symbol is checked before it is read. -/
def runFrom (d : Dfa) (state : String) : Word → Answer
  | [] => .ok (decide (state ∈ d.accept))
  | symbol :: word =>
    if symbol ∈ d.alphabet then d.runFrom (d.next state symbol) word
    else .error (.symbolNotInAlphabet symbol)

/-- Whether the automaton accepts a word. -/
def run (d : Dfa) (word : Word) : Answer := d.runFrom d.start word

/-- The entries of the table, by source and symbol. -/
def transitions (d : Dfa) : List (String × Char × String) :=
  d.table.entries.map fun entry => (entry.1.1, entry.1.2, entry.2)

end Dfa

end Acceptors
