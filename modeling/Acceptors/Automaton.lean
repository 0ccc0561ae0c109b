import Acceptors.Graph
import Acceptors.Pda.Search

/-! Machines of any kind, for callers that only ask for answers. -/
namespace Acceptors

/-- A finite automaton of either kind. -/
inductive FiniteAutomaton where
  | dfa (d : Dfa)
  | nfa (n : Nfa)

namespace FiniteAutomaton

/-- The alphabet that words are written in. -/
def alphabet : FiniteAutomaton → Alphabet
  | dfa d => d.alphabet
  | nfa n => n.alphabet

/-- Whether the automaton accepts a word. -/
def run : FiniteAutomaton → Word → Answer
  | dfa d => d.run
  | nfa n => n.run

/-- The automaton as a labelled graph. -/
def graph : FiniteAutomaton → Graph
  | dfa d => d.graph
  | nfa n => n.graph

end FiniteAutomaton

/-- Anything that accepts or rejects words over an alphabet. -/
inductive Automaton where
  | finite (automaton : FiniteAutomaton)
  | pushdown (p : Pda)

namespace Automaton

/-- The alphabet that words are written in. -/
def alphabet : Automaton → Alphabet
  | finite automaton => automaton.alphabet
  | pushdown p => p.alphabet

/-- The answer for a word. Only the search of a pushdown automaton without a step limit can
use up the budget. -/
def run (budget : Nat) : Automaton → Word → Option Answer
  | finite automaton, word => some (automaton.run word)
  | pushdown p, word => p.run budget word

end Automaton

end Acceptors
