import Acceptors.Nfa.Renaming

/-! The union, the concatenation and the repetition of automata. Without moves that read
nothing, a run passes from one part to the next by the entries of the start states of the
next part, which are copied to the accept states of the part before it. -/
namespace Acceptors.Nfa

/-- Give every state of `sources` the entries that the start states of `part` have for the
symbols of an alphabet. -/
def graft (table : SortedMap (String × Char) (SortedSet String)) (sources : SortedSet String)
    (part : Nfa) (alphabet : Alphabet) : SortedMap (String × Char) (SortedSet String) :=
  let entries := part.table.entries.filter fun entry =>
    decide (entry.1.1 ∈ part.start) && decide (entry.1.2 ∈ alphabet)
  sources.toList.foldl (fun table source =>
    entries.foldl (fun table entry => addTargets table (source, entry.1.2) entry.2) table) table

/-- An automaton of the words that `n` or `other` accepts. -/
def union (n other : Nfa) : Nfa :=
  let copy := n.disjointCopy other
  { alphabet := n.alphabet ∪ copy.alphabet
    states := n.states ∪ copy.states
    start := n.start ∪ copy.start
    accept := n.accept ∪ copy.accept
    table := n.table.insertAll copy.table.entries }

/-- An automaton of the words that consist of a word of `n` and a word of `other`. The accept
states of `n` stay accepting only if `other` accepts the empty word. -/
def concat (n other : Nfa) : Nfa :=
  let copy := n.disjointCopy other
  let alphabet := n.alphabet ∪ copy.alphabet
  { alphabet := alphabet
    states := n.states ∪ copy.states
    start := n.start
    accept := if copy.acceptsEmptyWord then copy.accept ∪ n.accept else copy.accept
    table := graft (n.table.insertAll copy.table.entries) n.accept copy alphabet }

/-- An automaton of the words that consist of any number of words of `n`. The empty word gets
a state of its own, unless `n` accepts it already. -/
def star (n : Nfa) : Nfa :=
  let table := graft n.table n.accept n n.alphabet
  if n.acceptsEmptyWord then { n with table := table }
  else
    let state := Name.fresh n.states "e"
    { alphabet := n.alphabet
      states := n.states.insert state
      start := n.start.insert state
      accept := n.accept.insert state
      table := table }

end Acceptors.Nfa
