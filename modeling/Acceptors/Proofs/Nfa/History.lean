import Acceptors.Proofs.Nfa.Determinization
import Acceptors.Proofs.Regex.Faults

/-! Nondeterministic automata and where they come from. Descriptions are validated, and the
combinations of automata are not: they are put together from renamed copies, merged alphabets and
repeated transitions. However deep they are nested, all names and symbols stay declared, and no
two states become one. -/
namespace Acceptors.Nfa

variable {n m : Nfa}

/-- The automata that can be had: of an accepted description, given as a whole or part by part,
of one symbol of an alphabet, of no word, of the empty word or of an expression, and all
combinations of these. -/
inductive Obtained : Nfa → Prop where
  | described {parts n : Nfa} (hValid : parts.validate = .ok n) : Obtained n
  | built {edits : List Edit} {n : Nfa} (hBuild : (Draft.ofEdits edits).build = .ok n) :
      Obtained n
  | symbol {alphabet : Alphabet} {a : Char} (ha : a ∈ alphabet) : Obtained (symbol alphabet a)
  | emptySet (alphabet : Alphabet) : Obtained (emptySet alphabet)
  | emptyWord (alphabet : Alphabet) : Obtained (emptyWord alphabet)
  | compiled {r : Regex} {n : Nfa} (hCompiled : r.automaton = .ok n) : Obtained n
  | union {n m : Nfa} (hn : Obtained n) (hm : Obtained m) : Obtained (n.union m)
  | concat {n m : Nfa} (hn : Obtained n) (hm : Obtained m) : Obtained (n.concat m)
  | star {n : Nfa} (hn : Obtained n) : Obtained n.star

/-- Whatever an automaton has been put together from, its names and symbols are declared. -/
theorem Obtained.wellFormed (hn : n.Obtained) : n.WellFormed := by
  induction hn with
  | described hValid =>
      obtain ⟨hWellFormed, rfl⟩ := validate_eq_ok_iff.mp hValid
      exact hWellFormed
  | built hBuild => exact Draft.wellFormed_of_build hBuild
  | symbol ha => exact wellFormed_symbol ha
  | emptySet => exact wellFormed_emptySet
  | emptyWord => exact wellFormed_emptyWord
  | compiled hCompiled => exact Regex.wellFormed_of_automaton hCompiled
  | union _ _ ihLeft ihRight => exact wellFormed_union ihLeft ihRight
  | concat _ _ ihLeft ihRight => exact wellFormed_concat ihLeft ihRight
  | star _ ih => exact wellFormed_star ih

/-- The states of the operand are copied one to one, and none of them coincides with another. -/
theorem size_union (n m : Nfa) : (n.union m).states.size = n.states.size + m.states.size :=
  size_beside_disjointCopy n m

theorem size_concat (n m : Nfa) : (n.concat m).states.size = n.states.size + m.states.size :=
  size_beside_disjointCopy n m

/-- Repetition adds a state for the empty word, unless that is accepted already. -/
theorem size_star (n : Nfa) :
    n.star.states.size = n.states.size + if n.acceptsEmptyWord then 0 else 1 := by
  cases hEmpty : n.acceptsEmptyWord with
  | true => rw [star_states_eq hEmpty, if_pos rfl, Nat.add_zero]
  | false =>
      obtain ⟨state, hNew, hStates⟩ := exists_star_states_eq hEmpty
      rw [hStates, SortedSet.size_insert hNew, if_neg Bool.false_ne_true]

/-- However an automaton was obtained, its states include all that start, that accept and that
are at either end of a transition, and its alphabet includes all symbols of its transitions. A
union or a concatenation has as many states as both parts together. When the automaton is
determinized, every member of a set that is discovered, and every target of such a member, is one
of the states. -/
theorem obtained_declared_and_counted (hn : n.Obtained) :
    n.WellFormed ∧
      (∀ m : Nfa, (n.union m).states.size = n.states.size + m.states.size ∧
        (n.concat m).states.size = n.states.size + m.states.size) ∧
      ∀ s ∈ n.subsets, ∀ q ∈ s, q ∈ n.states ∧
        ∀ a ∈ n.alphabet, ∀ r ∈ n.targets q a, r ∈ n.states := by
  have hWell := hn.wellFormed
  refine ⟨hWell, fun m => ⟨size_union n m, size_concat n m⟩, ?_⟩
  intro s hs q hq
  refine ⟨hWell.mem_states_of_mem_subsets hs hq, ?_⟩
  intro a _ r hr
  exact hWell.target_mem_states hr

def repeatedLetters : Nfa :=
  ((symbol (Alphabet.ofString "a") 'a').union (symbol (Alphabet.ofString "a") 'a')).star

/-- The copy of the second letter has the states `s2` and `s3`. All names are in use again when the
repetition is followed by itself. -/
theorem obtained_declared_and_counted_repeated :
    repeatedLetters.Obtained ∧ (repeatedLetters.concat repeatedLetters).WellFormed ∧
      (repeatedLetters.concat repeatedLetters).states.size = 10 ∧
      ∀ s ∈ (repeatedLetters.concat repeatedLetters).subsets, ∀ q ∈ s,
        q ∈ (repeatedLetters.concat repeatedLetters).states := by
  have hLetter : (symbol (Alphabet.ofString "a") 'a').Obtained := .symbol (by decide)
  have hRepeated : repeatedLetters.Obtained := .star (.union hLetter hLetter)
  have hSize : repeatedLetters.states.size = 5 := by decide
  obtain ⟨_, hCounted, _⟩ := obtained_declared_and_counted hRepeated
  obtain ⟨hWell, _, hSubsets⟩ := obtained_declared_and_counted (.concat hRepeated hRepeated)
  refine ⟨hRepeated, hWell, ?_, ?_⟩
  · rw [(hCounted repeatedLetters).2, hSize]
  · intro s hs q hq
    exact (hSubsets s hs q hq).1

end Acceptors.Nfa
