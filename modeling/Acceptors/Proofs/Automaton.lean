import Acceptors.Automaton
import Acceptors.Proofs.Dfa.Run
import Acceptors.Proofs.Nfa.Path
import Acceptors.Proofs.Pda.Foreign

/-! Words with foreign symbols. Whichever machine is asked, and at whatever moment it looks at a
symbol, it names the first symbol that its alphabet lacks and gives no verdict. -/
namespace Acceptors

variable {automaton : FiniteAutomaton} {word : Word} {a : Char}

/-- Finite automata of both kinds answer every word by some verdict. -/
theorem FiniteAutomaton.run_eq_answer (automaton : FiniteAutomaton) (word : Word) :
    ∃ verdict, automaton.run word = automaton.alphabet.answer word verdict := by
  cases automaton with
  | dfa d => exact ⟨_, d.run_eq_answer word⟩
  | nfa n => exact ⟨_, n.runFrom_eq_answer word⟩

theorem FiniteAutomaton.run_eq_symbolNotInAlphabet_iff :
    automaton.run word = .error (.symbolNotInAlphabet a) ↔
      automaton.alphabet.FirstForeign word a := by
  obtain ⟨verdict, hRun⟩ := automaton.run_eq_answer word
  rw [hRun]
  exact Alphabet.answer_eq_symbolNotInAlphabet_iff

/-- A finite automaton reports a foreign symbol exactly for the words that have one, and then the
first, also where no path is left before it. A pushdown automaton that answers reports the same
symbol, unless a limit was set and has been exceeded, and it reports none for a word over its
alphabet. -/
theorem foreign_symbols_reported :
    (∀ (automaton : FiniteAutomaton) (word : Word),
      ((∃ a, automaton.run word = .error (.symbolNotInAlphabet a)) ↔
        ∃ a ∈ word, a ∉ automaton.alphabet) ∧
      ∀ a, automaton.run word = .error (.symbolNotInAlphabet a) →
        automaton.alphabet.FirstForeign word a) ∧
    ∀ (p : Pda) (budget : Nat) (limit : Option Nat) (word : Word) (answer : Answer),
      p.runWith budget limit word = some answer →
        ((∃ a ∈ word, a ∉ p.alphabet) →
          (∃ a, p.alphabet.FirstForeign word a ∧ answer = .error (.symbolNotInAlphabet a)) ∨
            ∃ bound, limit = some bound ∧ answer = .error (.stepLimitExceeded bound)) ∧
        ((∀ a ∈ word, a ∈ p.alphabet) → ∀ a, answer ≠ .error (.symbolNotInAlphabet a)) := by
  constructor
  · intro automaton word
    simp only [FiniteAutomaton.run_eq_symbolNotInAlphabet_iff]
    exact ⟨Alphabet.exists_firstForeign_iff, fun a hFirst => hFirst⟩
  · intro p budget limit word answer hAnswer
    rcases Pda.runWith_eq_answer hAnswer with ⟨verdict, rfl⟩ | hExceeded
    · simp only [Alphabet.answer_eq_symbolNotInAlphabet_iff, ne_eq, and_self]
      constructor
      · intro hForeign
        exact Or.inl (Alphabet.exists_firstForeign_iff.mpr hForeign)
      · intro hKnown a hFirst
        obtain ⟨b, hb, hForeign⟩ := Alphabet.exists_firstForeign_iff.mp ⟨a, hFirst⟩
        exact hForeign (hKnown b hb)
    · obtain ⟨bound, hLimit, rfl⟩ := hExceeded
      refine ⟨fun _ => Or.inr ⟨bound, hLimit, rfl⟩, ?_⟩
      intro _ a hSame
      cases hSame

/-- The automaton of `a` has no path left at the second symbol of `aaca`. The search for `abca`
comes to the foreign symbol on its first branch. -/
theorem foreign_symbols_reported_behind_paths :
    (∃ a, (FiniteAutomaton.nfa (Nfa.symbol (Alphabet.ofString "a") 'a')).run ['a', 'a', 'c', 'a'] =
        .error (.symbolNotInAlphabet a)) ∧
      Pda.mirrored.runWith 20 none ['a', 'b', 'c', 'a'] =
        some (.error (.symbolNotInAlphabet 'c')) ∧
      Pda.mirrored.alphabet.FirstForeign ['a', 'b', 'c', 'a'] 'c' := by
  obtain ⟨hFinite, hPushdown⟩ := foreign_symbols_reported
  have hSearch : Pda.mirrored.runWith 20 none ['a', 'b', 'c', 'a'] =
      some (.error (.symbolNotInAlphabet 'c')) := by decide
  refine ⟨(hFinite _ _).1.mpr ⟨'c', by decide, by decide⟩, hSearch, ?_⟩
  rcases (hPushdown _ _ _ _ _ hSearch).1 ⟨'c', by decide, by decide⟩ with
    ⟨a, hFirst, hSame⟩ | ⟨bound, hLimit, _⟩
  · cases hSame
    exact hFirst
  · cases hLimit

end Acceptors
