import Acceptors.Dfa.Draft
import Acceptors.Listing
import Acceptors.Main
import Acceptors.Nfa.Draft
import Acceptors.Pda.Draft
import Acceptors.Proofs.Automaton
import Acceptors.Proofs.CommandLine.Matching
import Acceptors.Proofs.Dfa.History
import Acceptors.Proofs.Dfa.Isomorphism
import Acceptors.Proofs.Dfa.Partition
import Acceptors.Proofs.Dfa.Quotient
import Acceptors.Proofs.Dfa.Traversal
import Acceptors.Proofs.Dfa.Validation
import Acceptors.Proofs.Discovery
import Acceptors.Proofs.Graph
import Acceptors.Proofs.Graph.Dot
import Acceptors.Proofs.Name.Counting
import Acceptors.Proofs.Name.TrailingNumber
import Acceptors.Proofs.Nfa.History
import Acceptors.Proofs.Nfa.Isomorphism
import Acceptors.Proofs.Nfa.PowerAutomaton
import Acceptors.Proofs.Nfa.Simulation
import Acceptors.Proofs.Nfa.SubsetNames
import Acceptors.Proofs.Nfa.Widening
import Acceptors.Proofs.Pda.Backtracking
import Acceptors.Proofs.Pda.Configuration
import Acceptors.Proofs.Pda.Description
import Acceptors.Proofs.Pda.Determinism
import Acceptors.Proofs.Pda.Exploration
import Acceptors.Proofs.Pda.Termination
import Acceptors.Proofs.Pda.Validation
import Acceptors.Proofs.Pda.Violation
import Acceptors.Proofs.Regex.Juxtaposition
import Acceptors.Proofs.Regex.Notation
import Acceptors.Proofs.Regex.StateCount
import Acceptors.Proofs.Validation
import Acceptors.Proofs.Violations
