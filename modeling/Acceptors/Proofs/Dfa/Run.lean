import Acceptors.Dfa.Basic
import Acceptors.Proofs.Alphabet
import Acceptors.Proofs.Sorted.Lemmas

/-! The state that a deterministic automaton is in after a word, and what validation grants:
inside the declared states, with an entry for every next symbol. -/
namespace Acceptors.Dfa

variable {d : Dfa} {state : String}

def after (d : Dfa) (state : String) (word : Word) : String := word.foldl d.next state

@[simp] theorem after_cons {a : Char} {word : Word} :
    d.after state (a :: word) = d.after (d.next state a) word := rfl

theorem after_append (u v : Word) :
    d.after state (u ++ v) = d.after (d.after state u) v := List.foldl_append

/-- A run gives the verdict of its last state. -/
theorem runFrom_eq_answer (word : Word) :
    d.runFrom state word = d.alphabet.answer word (decide (d.after state word ∈ d.accept)) := by
  induction word generalizing state with
  | nil => rfl
  | cons a word ih =>
      rw [runFrom]
      by_cases ha : a ∈ d.alphabet
      · rw [if_pos ha, ih, Alphabet.answer_cons_of_mem ha, after_cons]
      · rw [if_neg ha, Alphabet.answer_cons_of_not_mem ha]

/-- The verdict on a word is that of the state in which a run over it ends. -/
theorem run_eq_answer (word : Word) :
    d.run word = d.alphabet.answer word (decide (d.after d.start word ∈ d.accept)) :=
  runFrom_eq_answer word

namespace WellFormed

variable (hd : d.WellFormed)
include hd

/-- The table of a well-formed automaton answers for every declared state and symbol, so the
default of `next` is never taken. -/
theorem next?_eq {a : Char} (hState : state ∈ d.states) (ha : a ∈ d.alphabet) :
    d.next? state a = some (d.next state a) := by
  have hEntry := (hd.mem_table state a).mpr ⟨hState, ha⟩
  obtain ⟨target, hTarget⟩ := SortedMap.exists_get?_of_mem hEntry
  rw [next, next?, hTarget]
  rfl

/-- A well-formed table has no other entries. -/
theorem next?_eq_none {a : Char} (hKey : ¬ (state ∈ d.states ∧ a ∈ d.alphabet)) :
    d.next? state a = none := by
  cases hEntry : d.next? state a with
  | none => rfl
  | some target =>
      have hTable : (state, a) ∈ d.table := SortedMap.mem_of_get?_eq_some hEntry
      exact absurd ((hd.mem_table state a).mp hTable) hKey

theorem next_mem {a : Char} (hState : state ∈ d.states) (ha : a ∈ d.alphabet) :
    d.next state a ∈ d.states :=
  hd.target_mem state a _ (hd.next?_eq hState ha)

/-- A run never leaves the declared states. -/
theorem after_mem {word : Word} (hState : state ∈ d.states)
    (hWord : ∀ a ∈ word, a ∈ d.alphabet) : d.after state word ∈ d.states := by
  induction word generalizing state with
  | nil => exact hState
  | cons a word ih =>
      rw [List.forall_mem_cons] at hWord
      exact ih (hd.next_mem hState hWord.1) hWord.2

end WellFormed

end Acceptors.Dfa
