import Acceptors.Alphabet
import Mathlib.Logic.Basic

/-! Words over an alphabet and words with a foreign symbol. A finite automaton of either kind
gives its verdict on the former and reports the first foreign symbol of the latter. -/
namespace Acceptors.Alphabet

variable {alphabet : Alphabet} {a : Char} {word : Word}

/-- The answer for a word, of a machine with this verdict on it if it is over the alphabet. -/
def answer (alphabet : Alphabet) (word : Word) (verdict : Bool) : Answer :=
  match alphabet.firstForeign? word with
  | some symbol => .error (.symbolNotInAlphabet symbol)
  | none => .ok verdict

/-- A machine rejects a word as if its verdict on the word were negative. -/
theorem reject_eq_answer : alphabet.reject word = alphabet.answer word false := rfl

theorem answer_cons_of_mem (ha : a ∈ alphabet) (verdict : Bool) :
    alphabet.answer (a :: word) verdict = alphabet.answer word verdict := by
  have hSkip : alphabet.firstForeign? (a :: word) = alphabet.firstForeign? word := by
    simp [firstForeign?, ha]
  rw [answer, answer, hSkip]

/-- Behind a foreign symbol nothing matters any more. -/
theorem answer_cons_of_not_mem (ha : a ∉ alphabet) (verdict : Bool) :
    alphabet.answer (a :: word) verdict = .error (.symbolNotInAlphabet a) := by
  have hFirst : alphabet.firstForeign? (a :: word) = some a := by
    simp [firstForeign?, ha]
  rw [answer, hFirst]

theorem answer_of_forall_mem (hWord : ∀ a ∈ word, a ∈ alphabet) (verdict : Bool) :
    alphabet.answer word verdict = .ok verdict := by
  rw [answer, firstForeign?_eq_none_iff.mpr hWord]

/-- Only words over the alphabet get a verdict, and it is the machine's. -/
theorem answer_eq_ok_iff {verdict other : Bool} :
    alphabet.answer word verdict = .ok other ↔ (∀ a ∈ word, a ∈ alphabet) ∧ verdict = other := by
  rw [answer, ← firstForeign?_eq_none_iff]
  cases alphabet.firstForeign? word <;> simp

/-- Verdicts matter on words over the alphabet only. -/
theorem answer_congr {verdict other : Bool}
    (hSame : (∀ a ∈ word, a ∈ alphabet) → verdict = other) :
    alphabet.answer word verdict = alphabet.answer word other := by
  cases hFirst : alphabet.firstForeign? word with
  | some symbol => rw [answer, answer, hFirst]
  | none => rw [hSame (firstForeign?_eq_none_iff.mp hFirst)]

/-- A symbol of a word that the alphabet lacks, behind symbols that it has. -/
def FirstForeign (alphabet : Alphabet) (word : Word) (symbol : Char) : Prop :=
  ∃ before rest, word = before ++ symbol :: rest ∧ (∀ a ∈ before, a ∈ alphabet) ∧
    symbol ∉ alphabet

theorem firstForeign?_eq_some_iff :
    alphabet.firstForeign? word = some a ↔ alphabet.FirstForeign word a := by
  rw [firstForeign?, List.find?_eq_some_iff_append, decide_eq_true_eq]
  constructor
  · intro hFound
    obtain ⟨ha, before, rest, rfl, hBefore⟩ := hFound
    exact ⟨before, rest, rfl, by simpa using hBefore, ha⟩
  · intro hFirst
    obtain ⟨before, rest, rfl, hBefore, ha⟩ := hFirst
    exact ⟨ha, before, rest, rfl, by simpa using hBefore⟩

/-- A word with foreign symbols has a first one. -/
theorem exists_firstForeign_iff :
    (∃ a, alphabet.FirstForeign word a) ↔ ∃ a ∈ word, a ∉ alphabet := by
  simp only [← firstForeign?_eq_some_iff, ← Option.isSome_iff_exists]
  rw [← Option.ne_none_iff_isSome, ne_eq, firstForeign?_eq_none_iff]
  simp only [not_forall, exists_prop]

/-- Every machine that answers by its verdict reports the first foreign symbol, whatever the
verdict would be. -/
theorem answer_eq_symbolNotInAlphabet_iff {verdict : Bool} :
    alphabet.answer word verdict = .error (.symbolNotInAlphabet a) ↔
      alphabet.FirstForeign word a := by
  rw [answer, ← firstForeign?_eq_some_iff]
  cases alphabet.firstForeign? word <;> simp

end Acceptors.Alphabet
