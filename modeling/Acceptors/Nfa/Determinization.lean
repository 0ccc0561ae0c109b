import Acceptors.Dfa.Basic
import Acceptors.Discovery
import Acceptors.Name
import Acceptors.Nfa.Basic

/-! The deterministic automaton whose states are the sets of states that a run may be in. The
sets are discovered from the start set on, named in the order of discovery, and only then
assembled, so that no name depends on the table. -/
namespace Acceptors.Nfa

/-- The sets that a set leads to, by ascending symbol. -/
def successors (n : Nfa) (subset : SortedSet String) : List (SortedSet String) :=
  n.alphabet.toList.map (n.step subset)

/-- The sets of states that some word leads to, in the order of discovery. -/
def subsets (n : Nfa) : List (SortedSet String) :=
  Discovery.discover n.successors (Nat.pow 2 n.states.size) n.start

/-- The members of a set in ascending order, in braces. Member names may contain commas and
braces, so different sets can have the same text. -/
def subsetText (subset : SortedSet String) : String :=
  "\x7b" ++ String.intercalate "," subset.toList ++ "\x7d"

/-- The names of the discovered sets. A text that is already in use is numbered. -/
def subsetNames (n : Nfa) : List String := Name.freshAll ∅ (n.subsets.map subsetText)

/-- The deterministic automaton with the same answers. -/
def determinize (n : Nfa) : Dfa :=
  let subsets := n.subsets
  let naming := subsets.zip n.subsetNames
  let nameOf := fun subset => (naming.lookup subset).getD (subsetText subset)
  { alphabet := n.alphabet
    states := SortedSet.ofList (subsets.map nameOf)
    start := nameOf n.start
    accept := SortedSet.ofList ((subsets.filter fun subset => subset.meets n.accept).map nameOf)
    table := SortedMap.ofList (subsets.flatMap fun subset =>
      n.alphabet.toList.map fun a => ((nameOf subset, a), nameOf (n.step subset a))) }

end Acceptors.Nfa
