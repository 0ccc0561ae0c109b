import Acceptors.Nfa.Combination
import Acceptors.Regex.Basic

/-! The automata of regular expressions. Each node of a syntax tree becomes one construction
on the automata of its operands. -/
namespace Acceptors.Regex

/-- The automaton of an atom. -/
def Atom.automaton (alphabet : Alphabet) : Atom → Nfa
  | symbol c => Nfa.symbol alphabet c
  | emptySet => Nfa.emptySet alphabet
  | emptyWord => Nfa.emptyWord alphabet

/-- The automaton of a syntax tree. -/
def Tree.automaton (alphabet : Alphabet) : Tree → Nfa
  | atom a => a.automaton alphabet
  | star operand => (operand.automaton alphabet).star
  | binary .union left right => (left.automaton alphabet).union (right.automaton alphabet)
  | binary .concatenation left right =>
    (left.automaton alphabet).concat (right.automaton alphabet)

/-- Compile an expression to an automaton that accepts the words it describes. -/
def automaton (r : Regex) : Except RegexError Nfa := r.tree.map (Tree.automaton r.alphabet)

end Acceptors.Regex
