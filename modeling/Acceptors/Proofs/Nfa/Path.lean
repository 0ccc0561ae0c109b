import Acceptors.Nfa.Basic
import Acceptors.Proofs.Alphabet
import Acceptors.Proofs.Sorted.Lemmas
import Mathlib.Computability.Language

/-! Paths through the table of a nondeterministic automaton, and the language of the words
that lead from a start state to an accept state. A run that follows all paths at once gives
the verdict of this language, also where it is cut short because no path is left. -/
namespace Acceptors.Nfa

variable {n : Nfa} {p q r : String}

theorem mem_targets {a : Char} :
    r ∈ n.targets q a ↔ ∃ targets, n.table.get? (q, a) = some targets ∧ r ∈ targets := by
  rw [targets]
  cases n.table.get? (q, a) <;> simp

namespace Declared

variable (hn : n.Declared)
include hn

theorem target_mem_states {a : Char} (hr : r ∈ n.targets q a) : r ∈ n.states := by
  obtain ⟨targets, hGet, hr⟩ := mem_targets.mp hr
  exact hn.target_mem q a targets hGet r hr

theorem source_mem_states {a : Char} (hr : r ∈ n.targets q a) : q ∈ n.states := by
  obtain ⟨targets, hGet, _⟩ := mem_targets.mp hr
  exact hn.source_mem q a (SortedMap.mem_of_get?_eq_some hGet)

end Declared

theorem WellFormed.symbol_mem_alphabet (hn : n.WellFormed) {a : Char} (hr : r ∈ n.targets q a) :
    a ∈ n.alphabet := by
  obtain ⟨targets, hGet, _⟩ := mem_targets.mp hr
  exact hn.symbol_mem q a (SortedMap.mem_of_get?_eq_some hGet)

inductive Path (n : Nfa) : String → Word → String → Prop where
  | nil (q : String) : Path n q [] q
  | cons {q r s : String} {a : Char} {word : Word} (first : r ∈ n.targets q a)
      (rest : Path n r word s) : Path n q (a :: word) s

namespace Path

/-- There are no silent moves: a path that reads nothing stays where it is. -/
@[simp] theorem nil_iff : n.Path q [] r ↔ q = r := by
  constructor
  · intro path
    cases path
    rfl
  · rintro rfl
    exact .nil q

theorem cons_iff {a : Char} {word : Word} :
    n.Path q (a :: word) r ↔ ∃ s ∈ n.targets q a, n.Path s word r := by
  constructor
  · intro path
    cases path with
    | cons first rest => exact ⟨_, first, rest⟩
  · rintro ⟨s, first, rest⟩
    exact .cons first rest

/-- A path goes on where another ends. -/
theorem append {u v : Word} (left : n.Path p u q) (right : n.Path q v r) :
    n.Path p (u ++ v) r := by
  induction left with
  | nil => exact right
  | cons first rest ih => exact .cons first (ih right)

/-- Paths of declared states stay among these. -/
theorem mem_states (hn : n.Declared) {word : Word} (path : n.Path q word r)
    (hStart : q ∈ n.states) : r ∈ n.states := by
  induction path with
  | nil => exact hStart
  | cons first _ ih => exact ih (hn.target_mem_states first)

/-- Paths of a well-formed automaton read symbols of its alphabet only. -/
theorem mem_alphabet (hn : n.WellFormed) {word : Word} (path : n.Path q word r) :
    ∀ a ∈ word, a ∈ n.alphabet := by
  induction path with
  | nil => exact List.forall_mem_nil _
  | cons first _ ih => exact List.forall_mem_cons.mpr ⟨hn.symbol_mem_alphabet first, ih⟩

/-- An automaton with more transitions has more paths. -/
theorem mono {m : Nfa} (hn : n.Declared)
    (hMore : ∀ q ∈ n.states, ∀ a, ∀ r ∈ n.targets q a, r ∈ m.targets q a) {word : Word}
    (path : n.Path q word r) (hStart : q ∈ n.states) : m.Path q word r := by
  induction path with
  | nil q => exact .nil q
  | cons first rest ih =>
      exact .cons (hMore _ hStart _ _ first) (ih (hn.target_mem_states first))

/-- An automaton that has the same transitions from the states of another has the same paths
from there. -/
theorem congr_of_targets {m : Nfa} (hn : n.Declared)
    (hSame : ∀ q ∈ n.states, ∀ a, m.targets q a = n.targets q a) {word : Word}
    (hStart : q ∈ n.states) : m.Path q word r ↔ n.Path q word r := by
  induction word generalizing q with
  | nil => rw [nil_iff, nil_iff]
  | cons a word ih =>
      rw [cons_iff, cons_iff, hSame q hStart a]
      apply exists_congr
      intro s
      apply and_congr_right
      intro hs
      exact ih (hn.target_mem_states hs)

end Path

/-- The states that a run may be in after a word. -/
def after (n : Nfa) (frontier : SortedSet String) (word : Word) : SortedSet String :=
  word.foldl n.step frontier

theorem after_cons {frontier : SortedSet String} {a : Char} {word : Word} :
    n.after frontier (a :: word) = n.after (n.step frontier a) word := rfl

/-- A run may be in the states that paths over the word lead to, and in no others. -/
theorem mem_after {frontier : SortedSet String} {word : Word} :
    r ∈ n.after frontier word ↔ ∃ q ∈ frontier, n.Path q word r := by
  induction word generalizing frontier with
  | nil => simp [after]
  | cons a word ih =>
      rw [after_cons, ih]
      simp only [mem_step, Path.cons_iff]
      constructor
      · rintro ⟨s, ⟨q, hq, hs⟩, path⟩
        exact ⟨q, hq, s, hs, path⟩
      · rintro ⟨q, hq, s, hs, path⟩
        exact ⟨s, ⟨q, hq, hs⟩, path⟩

/-- Whether a set of states accepts a word. -/
theorem meets_after_iff {frontier : SortedSet String} {word : Word} :
    (n.after frontier word).meets n.accept = true ↔
      ∃ q ∈ frontier, ∃ r ∈ n.accept, n.Path q word r := by
  rw [SortedSet.meets_iff]
  simp only [mem_after]
  constructor
  · rintro ⟨r, ⟨q, hq, path⟩, hr⟩
    exact ⟨q, hq, r, hr, path⟩
  · rintro ⟨q, hq, r, hr, path⟩
    exact ⟨r, ⟨q, hq, path⟩, hr⟩

/-- No word leads out of an empty set of states. -/
theorem meets_after_of_isEmpty {frontier : SortedSet String} (hEmpty : frontier.isEmpty = true)
    (word : Word) : (n.after frontier word).meets n.accept = false := by
  rw [Bool.eq_false_iff, ne_eq, meets_after_iff]
  rintro ⟨q, hq, _⟩
  exact SortedSet.isEmpty_iff.mp hEmpty q hq

/-- A run gives the verdict of the states that it may end in. -/
theorem runFrom_eq_answer {frontier : SortedSet String} (word : Word) :
    n.runFrom frontier word =
      n.alphabet.answer word ((n.after frontier word).meets n.accept) := by
  induction word generalizing frontier with
  | nil => rfl
  | cons a word ih =>
      rw [runFrom]
      by_cases ha : a ∈ n.alphabet
      · rw [if_pos ha, Alphabet.answer_cons_of_mem ha, after_cons]
        dsimp only
        by_cases hEmpty : (n.step frontier a).isEmpty = true
        · rw [if_pos hEmpty, Alphabet.reject_eq_answer, meets_after_of_isEmpty hEmpty]
        · rw [if_neg hEmpty, ih]
      · rw [if_neg ha, Alphabet.answer_cons_of_not_mem ha]

def language (n : Nfa) : Language Char :=
  {word | ∃ q ∈ n.start, ∃ r ∈ n.accept, n.Path q word r}

theorem mem_language {word : Word} :
    word ∈ n.language ↔ ∃ q ∈ n.start, ∃ r ∈ n.accept, n.Path q word r := Iff.rfl

open Classical in
/-- A run decides the language. -/
theorem run_eq_answer (word : Word) :
    n.run word = n.alphabet.answer word (decide (word ∈ n.language)) := by
  have hVerdict : (n.after n.start word).meets n.accept = decide (word ∈ n.language) := by
    rw [Bool.eq_iff_iff, decide_eq_true_eq, meets_after_iff, mem_language]
  rw [run, runFrom_eq_answer, hVerdict]

/-- On words over the alphabet, a run gives the verdict of the language. -/
theorem run_verdict_iff {word : Word} (hWord : ∀ a ∈ word, a ∈ n.alphabet) :
    (n.run word = .ok true ↔ word ∈ n.language) ∧
      (n.run word = .ok false ↔ word ∉ n.language) := by
  rw [run_eq_answer, Alphabet.answer_of_forall_mem hWord]
  simp

/-- A run accepts the words of the language that are over the alphabet. -/
theorem run_eq_ok_true_iff {word : Word} :
    n.run word = .ok true ↔ word ∈ n.language ∧ ∀ a ∈ word, a ∈ n.alphabet := by
  classical
  rw [run_eq_answer, Alphabet.answer_eq_ok_iff, decide_eq_true_eq, and_comm]

/-- A well-formed automaton accepts its language, and no word with a foreign symbol is in it. -/
theorem WellFormed.run_eq_ok_true_iff (hn : n.WellFormed) {word : Word} :
    n.run word = .ok true ↔ word ∈ n.language := by
  rw [Nfa.run_eq_ok_true_iff, and_iff_left_iff_imp]
  intro hLanguage
  obtain ⟨q, _, r, _, path⟩ := hLanguage
  exact path.mem_alphabet hn

/-- As no move is silent, the empty word is accepted exactly if a start state accepts. -/
theorem acceptsEmptyWord_iff : n.acceptsEmptyWord = true ↔ [] ∈ n.language := by
  rw [acceptsEmptyWord, SortedSet.meets_iff, mem_language]
  simp only [Path.nil_iff]
  constructor
  · rintro ⟨q, hq, hAccept⟩
    exact ⟨q, hq, q, hAccept, rfl⟩
  · rintro ⟨q, hq, r, hr, rfl⟩
    exact ⟨q, hq, hr⟩

end Acceptors.Nfa
