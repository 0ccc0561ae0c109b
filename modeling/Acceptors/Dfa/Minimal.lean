import Acceptors.Dfa.Equivalence

/-! Minimal automata. The states that no word leads to are dropped, and each class of
equivalent states is merged into one representative, which is the start state for its own
class and the least name for any other. -/
namespace Acceptors.Dfa

/-- The states that some word leads to from the start state. -/
def reachable (d : Dfa) : SortedSet String :=
  SortedSet.ofList
    (Discovery.discover (fun q => d.alphabet.toList.map (d.next q)) d.states.size d.start)

/-- The automaton without its unreachable states. -/
def trim (d : Dfa) : Dfa :=
  let reached := d.reachable
  { d with
    states := reached
    accept := d.accept.filter fun q => decide (q ∈ reached)
    table := d.table.filterKeys fun key => decide (key.1 ∈ reached) }

/-- The state that stands for a class. -/
def representative (d : Dfa) (members : List String) : String :=
  if d.start ∈ members then d.start else members.headD d.start

/-- The state that stands for the class of a state. -/
def representativeOf (d : Dfa) (groups : List (List String)) (state : String) : String :=
  match groups.find? fun members => decide (state ∈ members) with
  | some members => d.representative members
  | none => state

/-- The automaton on the representatives of the equivalence classes. -/
def quotient (d : Dfa) : Dfa :=
  let groups := d.classes
  let isKept := fun q => decide (d.representativeOf groups q = q)
  { d with
    states := SortedSet.ofList (groups.map d.representative)
    accept := d.accept.filter isKept
    table := (d.table.filterKeys fun key => isKept key.1).mapValues (d.representativeOf groups) }

/-- The smallest automaton with the same answers. -/
def minimize (d : Dfa) : Dfa := d.trim.quotient

end Acceptors.Dfa
