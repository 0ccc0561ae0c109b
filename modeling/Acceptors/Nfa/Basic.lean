import Acceptors.Alphabet
import Acceptors.Sorted.Map

/-! Nondeterministic finite automata over named states, without moves that read nothing.
Several start states are allowed, which is how an automaton can accept the empty word beside
others. A run follows all its paths at once. -/
namespace Acceptors

/-- A nondeterministic finite automaton, given by its parts. -/
structure Nfa where
  alphabet : Alphabet
  states : SortedSet String
  start : SortedSet String
  accept : SortedSet String
  /-- The targets of pairs of state and symbol. An absent entry has no targets, and neither
  may an entry that is present. -/
  table : SortedMap (String × Char) (SortedSet String)
deriving DecidableEq

namespace Nfa

/-- All names that an automaton mentions are declared as states. -/
structure Declared (n : Nfa) : Prop where
  start_mem : ∀ q ∈ n.start, q ∈ n.states
  accept_mem : ∀ q ∈ n.accept, q ∈ n.states
  source_mem : ∀ q a, (q, a) ∈ n.table → q ∈ n.states
  target_mem : ∀ q a targets, n.table.get? (q, a) = some targets → ∀ r ∈ targets, r ∈ n.states

/-- What every description of a nondeterministic automaton has to satisfy: beside names, also
the symbols of the table are declared. -/
structure WellFormed (n : Nfa) : Prop extends n.Declared where
  symbol_mem : ∀ q a, (q, a) ∈ n.table → a ∈ n.alphabet

/-- The automaton of the word that is one symbol. The symbol need not be in the alphabet, but
then no run can read it. -/
def symbol (alphabet : Alphabet) (a : Char) : Nfa where
  alphabet := alphabet
  states := SortedSet.ofList ["s0", "s1"]
  start := SortedSet.ofList ["s0"]
  accept := SortedSet.ofList ["s1"]
  table := SortedMap.ofList [(("s0", a), SortedSet.ofList ["s1"])]

/-- The automaton without states, which accepts nothing. -/
def emptySet (alphabet : Alphabet) : Nfa where
  alphabet := alphabet
  states := ∅
  start := ∅
  accept := ∅
  table := ∅

/-- The automaton of the empty word, whose one state starts and accepts. -/
def emptyWord (alphabet : Alphabet) : Nfa where
  alphabet := alphabet
  states := SortedSet.ofList ["s0"]
  start := SortedSet.ofList ["s0"]
  accept := SortedSet.ofList ["s0"]
  table := ∅

/-- The targets of a state on a symbol. -/
def targets (n : Nfa) (state : String) (a : Char) : SortedSet String :=
  (n.table.get? (state, a)).getD ∅

/-- Add targets to the entry of a state and symbol. -/
def addTargets (table : SortedMap (String × Char) (SortedSet String)) (key : String × Char)
    (targets : SortedSet String) : SortedMap (String × Char) (SortedSet String) :=
  table.alter key fun present => targets ∪ present.getD ∅

/-- The targets of a set of states on a symbol. -/
def step (n : Nfa) (frontier : SortedSet String) (a : Char) : SortedSet String :=
  frontier.biUnion fun q => n.targets q a

theorem mem_step {n : Nfa} {frontier : SortedSet String} {a : Char} {r : String} :
    r ∈ n.step frontier a ↔ ∃ q ∈ frontier, r ∈ n.targets q a :=
  SortedSet.mem_biUnion

/-- Whether some start state accepts. -/
def acceptsEmptyWord (n : Nfa) : Bool := n.start.meets n.accept

/-- Continue a run from the set of states it may be in. An empty set stays empty, so the word
is then rejected at once, after a look at the symbols that remain. -/
def runFrom (n : Nfa) (frontier : SortedSet String) : Word → Answer
  | [] => .ok (frontier.meets n.accept)
  | a :: word =>
    if a ∈ n.alphabet then
      let reached := n.step frontier a
      if reached.isEmpty then n.alphabet.reject word else n.runFrom reached word
    else .error (.symbolNotInAlphabet a)

/-- Whether the automaton accepts a word. -/
def run (n : Nfa) (word : Word) : Answer := n.runFrom n.start word

/-- The transitions of the table, by source, symbol and target. -/
def transitions (n : Nfa) : List (String × Char × String) :=
  n.table.entries.flatMap fun entry =>
    entry.2.toList.map fun target => (entry.1.1, entry.1.2, target)

end Nfa

end Acceptors
