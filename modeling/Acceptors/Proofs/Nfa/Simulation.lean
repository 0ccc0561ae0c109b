import Acceptors.Proofs.Nfa.Path

/-! Runs and paths. A run keeps the set of states that paths lead to, and stops where this set is
empty. Nothing is lost by that: a run that goes on to the end of the word comes to the same
answer, and it is the answer of the paths. -/
namespace Acceptors.Nfa

variable {n : Nfa} {frontier : SortedSet String}

/-- A run that does not stop early. An empty set of states is followed like any other, and the
verdict is given at the end of the word. -/
def runToEndFrom (n : Nfa) (frontier : SortedSet String) : Word → Answer
  | [] => .ok (frontier.meets n.accept)
  | a :: word => do
    n.alphabet.check a
    n.runToEndFrom (n.step frontier a) word

def runToEnd (n : Nfa) (word : Word) : Answer := n.runToEndFrom n.start word

theorem runToEndFrom_cons_of_mem {a : Char} {word : Word} (ha : a ∈ n.alphabet) :
    n.runToEndFrom frontier (a :: word) = n.runToEndFrom (n.step frontier a) word := by
  rw [runToEndFrom, Alphabet.check, if_pos ha]
  rfl

/-- A foreign symbol is reported even if no state is left when it is read. -/
theorem runToEndFrom_cons_of_not_mem {a : Char} {word : Word} (ha : a ∉ n.alphabet) :
    n.runToEndFrom frontier (a :: word) = .error (.symbolNotInAlphabet a) := by
  rw [runToEndFrom, Alphabet.check, if_neg ha]
  rfl

/-- From every set of states, the run that does not stop early gives the verdict of the states that
it ends in. -/
theorem runToEndFrom_eq_answer (word : Word) :
    n.runToEndFrom frontier word =
      n.alphabet.answer word ((n.after frontier word).meets n.accept) := by
  induction word generalizing frontier with
  | nil => rfl
  | cons a word ih =>
      by_cases ha : a ∈ n.alphabet
      · rw [runToEndFrom_cons_of_mem ha, Alphabet.answer_cons_of_mem ha, after_cons, ih]
      · rw [runToEndFrom_cons_of_not_mem ha, Alphabet.answer_cons_of_not_mem ha]

/-- To stop early changes no answer, as the rest of the word is still searched for foreign symbols.
-/
theorem runFrom_eq_runToEndFrom (word : Word) :
    n.runFrom frontier word = n.runToEndFrom frontier word := by
  rw [runFrom_eq_answer, runToEndFrom_eq_answer]

/-- On a word over the alphabet, a run accepts if a path for the word leads from a start state to an
accept state, and rejects if none does. On every word, also one with a foreign symbol, it answers
like a run that does not stop where no path is left. -/
theorem run_decides_paths (n : Nfa) :
    (∀ word : Word, (∀ a ∈ word, a ∈ n.alphabet) →
      (n.run word = .ok true ↔ ∃ q ∈ n.start, ∃ r ∈ n.accept, n.Path q word r) ∧
      (n.run word = .ok false ↔ ¬ ∃ q ∈ n.start, ∃ r ∈ n.accept, n.Path q word r)) ∧
    ∀ word, n.run word = n.runToEnd word := by
  constructor
  · intro word hWord
    exact run_verdict_iff hWord
  · intro word
    exact runFrom_eq_runToEndFrom word

/-- Words that begin with `a` and end with `b`. The state `sink` has an entry without targets, and
the state `guess` has no entry for `a`. -/
def guessedEnd : Nfa where
  alphabet := Alphabet.ofString "ab"
  states := SortedSet.ofList ["start", "middle", "guess", "sink"]
  start := SortedSet.ofList ["start"]
  accept := SortedSet.ofList ["guess"]
  table := SortedMap.ofList [(("start", 'a'), SortedSet.ofList ["middle"]),
    (("start", 'b'), SortedSet.ofList ["sink"]), (("sink", 'b'), ∅),
    (("middle", 'a'), SortedSet.ofList ["middle"]),
    (("middle", 'b'), SortedSet.ofList ["middle", "guess"])]

/-- For `abab`, one path ends at the second `a` and another goes on to an accept state. After `bb` no
path is left, and of the two runs only one looks at the sets that follow. -/
theorem run_decides_paths_guessed :
    (∃ q ∈ guessedEnd.start, ∃ r ∈ guessedEnd.accept,
        guessedEnd.Path q ['a', 'b', 'a', 'b'] r) ∧
      (guessedEnd.after guessedEnd.start ['b', 'b']).isEmpty = true ∧
      (¬ ∃ q ∈ guessedEnd.start, ∃ r ∈ guessedEnd.accept,
        guessedEnd.Path q ['b', 'b', 'a', 'b'] r) ∧
      guessedEnd.runToEnd ['b', 'b', 'a', 'c'] = .error (.symbolNotInAlphabet 'c') := by
  obtain ⟨hPaths, hRun⟩ := run_decides_paths guessedEnd
  have hFound : ∀ a ∈ ['a', 'b', 'a', 'b'], a ∈ guessedEnd.alphabet :=
    Alphabet.firstForeign?_eq_none_iff.mp (by decide)
  have hNone : ∀ a ∈ ['b', 'b', 'a', 'b'], a ∈ guessedEnd.alphabet :=
    Alphabet.firstForeign?_eq_none_iff.mp (by decide)
  refine ⟨(hPaths _ hFound).1.mp (by decide), by decide, (hPaths _ hNone).2.mp (by decide), ?_⟩
  rw [← hRun]
  rfl

end Acceptors.Nfa
