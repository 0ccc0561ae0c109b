import Acceptors.Dfa.Basic
import Acceptors.Discovery

/-! The states of a deterministic automaton grouped by the words they accept. States carry
class numbers. One refinement round tells states of a class apart by the classes of their
successors, and the rounds end when the number of classes no longer grows. -/
namespace Acceptors.Dfa

/-- A class number for every state, in state order. -/
abbrev Labelling := List (String × Nat)

/-- The class number of a state. -/
def Labelling.classOf (labels : Labelling) (state : String) : Nat := (labels.lookup state).getD 0

/-- How many class numbers are in use. -/
def Labelling.classCount (labels : Labelling) : Nat :=
  (Discovery.distinct (labels.map Prod.snd)).length

/-- The first labelling separates accepting states from the others. -/
def acceptanceLabels (d : Dfa) : Labelling :=
  d.states.toList.map fun q => (q, if q ∈ d.accept then 1 else 0)

/-- What one round compares: the class of a state, and the classes of its successors by
ascending symbol. -/
def signature (d : Dfa) (labels : Labelling) (state : String) : List Nat :=
  labels.classOf state :: d.alphabet.toList.map fun a => labels.classOf (d.next state a)

/-- One refinement round. Classes are numbered in the order in which their first states come. -/
def refine (d : Dfa) (labels : Labelling) : Labelling :=
  let signatures := d.states.toList.map (d.signature labels)
  let kinds := Discovery.distinct signatures
  d.states.toList.zip (signatures.map fun s => kinds.idxOf s)

/-- Refine until a round adds no class. Every other round adds one, so the number of states
bounds the number of rounds. -/
def settle (d : Dfa) : Nat → Labelling → Labelling
  | 0, labels => labels
  | rounds + 1, labels =>
    let refined := d.refine labels
    if refined.classCount = labels.classCount then refined else d.settle rounds refined

/-- The states grouped by class. Groups are in the order of their first states, and the
states of a group are in state order. -/
def classes (d : Dfa) : List (List String) :=
  let labels := d.settle d.states.size d.acceptanceLabels
  (List.range labels.classCount).map fun number =>
    d.states.toList.filter fun q => labels.classOf q = number

end Acceptors.Dfa
