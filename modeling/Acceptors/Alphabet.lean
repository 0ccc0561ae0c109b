import Acceptors.Answer
import Acceptors.Sorted.Set

/-! Alphabets of input symbols, and the check that a word uses no other symbol. Every
machine reports the first foreign symbol of a word that it does not accept. -/
namespace Acceptors

/-- The finite set of symbols that words are written in. -/
abbrev Alphabet := SortedSet Char

/-- A finite sequence of symbols. -/
abbrev Word := List Char

namespace Alphabet

/-- The alphabet of the characters of a text. -/
def ofString (text : String) : Alphabet := SortedSet.ofList text.toList

@[simp] theorem mem_ofString {text : String} {c : Char} :
    c ∈ ofString text ↔ c ∈ text.toList := SortedSet.mem_ofList

/-- The text of the symbols in ascending order. -/
def toString (alphabet : Alphabet) : String := String.ofList alphabet.toList

/-- Accepts a symbol of the alphabet and reports any other. -/
def check (alphabet : Alphabet) (symbol : Char) : Except RunError Unit :=
  if symbol ∈ alphabet then .ok () else .error (.symbolNotInAlphabet symbol)

/-- The first symbol of a word that the alphabet lacks. -/
def firstForeign? (alphabet : Alphabet) (word : Word) : Option Char :=
  word.find? fun symbol => decide (symbol ∉ alphabet)

theorem firstForeign?_eq_none_iff {alphabet : Alphabet} {word : Word} :
    alphabet.firstForeign? word = none ↔ ∀ symbol ∈ word, symbol ∈ alphabet := by
  simp [firstForeign?]

/-- The answer for a word that is not accepted: a plain rejection is given only for words
over the alphabet. -/
def reject (alphabet : Alphabet) (word : Word) : Answer :=
  match alphabet.firstForeign? word with
  | some symbol => .error (.symbolNotInAlphabet symbol)
  | none => .ok false

end Alphabet

end Acceptors
