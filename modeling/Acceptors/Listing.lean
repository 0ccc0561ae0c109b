import Acceptors.Dfa.Basic
import Acceptors.Nfa.Basic
import Acceptors.Text.Quoted

/-! Automata written out line by line: the start states, the accept states, and the table.
Sets of names are quoted, single names and symbols stand as they are. -/
namespace Acceptors

/-- A set of names, quoted and in braces. -/
def namesText (names : SortedSet String) : String :=
  Text.braced (names.toList.map Text.quoted)

/-- The line of a table entry. -/
def entryLine (source : String) (symbol : Char) (target : String) : String :=
  "  " ++ source ++ " -" ++ symbol.toString ++ "-> " ++ target ++ "\n"

/-- A deterministic automaton with one line for each transition. -/
def Dfa.listing (d : Dfa) : String :=
  "start: " ++ d.start ++ "\n" ++
  "accept: " ++ namesText d.accept ++ "\n" ++
  String.join (d.transitions.map fun t => entryLine t.1 t.2.1 t.2.2)

/-- A nondeterministic automaton with one line for each table entry, also for an entry without
targets. -/
def Nfa.listing (n : Nfa) : String :=
  "start: " ++ namesText n.start ++ "\n" ++
  "accept: " ++ namesText n.accept ++ "\n" ++
  String.join (n.table.entries.map fun entry =>
    entryLine entry.1.1 entry.1.2 (namesText entry.2))

/-- The symbols of an alphabet, quoted and in braces. -/
def Alphabet.listing (alphabet : Alphabet) : String :=
  Text.braced (alphabet.toList.map Text.quotedChar)

end Acceptors
