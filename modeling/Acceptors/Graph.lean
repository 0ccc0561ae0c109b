import Acceptors.Dfa.Basic
import Acceptors.Nfa.Basic

/-! Automata as labelled graphs. Nodes are numbered in state order, and all symbols that lead
from one state to another are on one edge. -/
namespace Acceptors

/-- The drawing of a state. -/
structure Graph.Node where
  name : String
  start : Bool
  accept : Bool
deriving DecidableEq

/-- The drawing of all transitions from one state to another. -/
structure Graph.Edge where
  /-- The node number of the source. -/
  source : Nat
  /-- The node number of the target. -/
  target : Nat
  symbols : List Char
deriving DecidableEq

/-- A directed graph of states. -/
structure Graph where
  nodes : List Graph.Node
  edges : List Graph.Edge
deriving DecidableEq

namespace Graph

/-- Start states have an arrow before the name, accept states have parentheses around it. -/
def Node.label (node : Node) : String :=
  (if node.start then "-> " else "") ++
    (if node.accept then "(" ++ node.name ++ ")" else node.name)

/-- The symbols of an edge, separated by commas. -/
def Edge.label (edge : Edge) : String :=
  String.intercalate "," (edge.symbols.map Char.toString)

/-- The symbols between each pair of states, in the order of the transitions. -/
def symbolsBetween (transitions : List (String × Char × String)) :
    SortedMap (String × String) (List Char) :=
  transitions.foldl (fun edges t =>
    edges.alter (t.1, t.2.2) fun present => present.getD [] ++ [t.2.1]) ∅

/-- The graph of some states and the transitions between them. -/
def ofTransitions (states : SortedSet String) (isStart isAccept : String → Bool)
    (transitions : List (String × Char × String)) : Graph where
  nodes := states.toList.map fun q => ⟨q, isStart q, isAccept q⟩
  edges := (symbolsBetween transitions).entries.map fun entry =>
    ⟨states.toList.idxOf entry.1.1, states.toList.idxOf entry.1.2, entry.2⟩

end Graph

/-- The graph of a deterministic automaton. -/
def Dfa.graph (d : Dfa) : Graph :=
  Graph.ofTransitions d.states (fun q => decide (q = d.start)) (fun q => decide (q ∈ d.accept))
    d.transitions

/-- The graph of a nondeterministic automaton. -/
def Nfa.graph (n : Nfa) : Graph :=
  Graph.ofTransitions n.states (fun q => decide (q ∈ n.start)) (fun q => decide (q ∈ n.accept))
    n.transitions

end Acceptors
