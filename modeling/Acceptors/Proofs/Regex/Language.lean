import Acceptors.Proofs.Nfa.Concatenation
import Acceptors.Proofs.Nfa.Elementary
import Acceptors.Proofs.Nfa.Repetition
import Acceptors.Proofs.Nfa.Union
import Acceptors.Regex.Automaton

/-! The languages of syntax trees. The automaton of a tree accepts the language of the tree,
because each construction on automata is the same operation on languages. -/
namespace Acceptors.Regex

open Computability

def Atom.language : Atom → Language Char
  | symbol c => {[c]}
  | emptySet => 0
  | emptyWord => 1

def Tree.language : Tree → Language Char
  | atom a => a.language
  | star operand => operand.language∗
  | binary .union left right => left.language + right.language
  | binary .concatenation left right => left.language * right.language

def Tree.Over (alphabet : Alphabet) : Tree → Prop
  | atom (.symbol c) => c ∈ alphabet
  | atom _ => True
  | star operand => operand.Over alphabet
  | binary _ left right => left.Over alphabet ∧ right.Over alphabet

variable {alphabet : Alphabet} {t : Tree}

theorem Tree.alphabet_automaton (alphabet : Alphabet) (t : Tree) :
    (t.automaton alphabet).alphabet = alphabet := by
  have hUnion : ∀ n m : Nfa, n.alphabet = alphabet → m.alphabet = alphabet →
      n.alphabet ∪ m.alphabet = alphabet := by
    intro n m hn hm
    ext c
    rw [SortedSet.mem_union, hn, hm, or_self]
  induction t with
  | atom a => cases a <;> rfl
  | star t ih => exact (Nfa.alphabet_star _).trans ih
  | binary o t u ihLeft ihRight =>
      cases o with
      | union => exact hUnion _ _ ihLeft ihRight
      | concatenation => exact hUnion _ _ ihLeft ihRight

/-- Combinations of well-formed automata are well formed, so only the symbols have to be declared.
-/
theorem Tree.wellFormed_automaton (hOver : t.Over alphabet) :
    (t.automaton alphabet).WellFormed := by
  induction t with
  | atom a =>
      cases a with
      | symbol c => exact Nfa.wellFormed_symbol hOver
      | emptySet => exact Nfa.wellFormed_emptySet
      | emptyWord => exact Nfa.wellFormed_emptyWord
  | star t ih => exact Nfa.wellFormed_star (ih hOver)
  | binary o t u ihLeft ihRight =>
      cases o with
      | union => exact Nfa.wellFormed_union (ihLeft hOver.1) (ihRight hOver.2)
      | concatenation => exact Nfa.wellFormed_concat (ihLeft hOver.1) (ihRight hOver.2)

/-- Each construction is the operation on languages that the tree has in its place. -/
theorem Tree.language_automaton (hOver : t.Over alphabet) :
    (t.automaton alphabet).language = t.language := by
  induction t with
  | atom a =>
      cases a with
      | symbol c => exact Nfa.language_symbol
      | emptySet => exact Nfa.language_emptySet
      | emptyWord => exact Nfa.language_emptyWord
  | star t ih =>
      have hPart := Tree.wellFormed_automaton (t := t) hOver
      rw [Tree.automaton, Tree.language, Nfa.language_star hPart, ih hOver]
  | binary o t u ihLeft ihRight =>
      have hLeft := Tree.wellFormed_automaton hOver.1
      have hRight := Tree.wellFormed_automaton hOver.2
      cases o with
      | union =>
          rw [Tree.automaton, Tree.language,
            Nfa.language_union hLeft.toDeclared hRight.toDeclared, ihLeft hOver.1, ihRight hOver.2]
      | concatenation =>
          rw [Tree.automaton, Tree.language, Nfa.language_concat hLeft hRight, ihLeft hOver.1,
            ihRight hOver.2]

open Classical in
/-- The automaton of a tree decides the tree's language. -/
theorem Tree.run_automaton_eq_answer (hOver : t.Over alphabet) (word : Word) :
    (t.automaton alphabet).run word = alphabet.answer word (decide (word ∈ t.language)) := by
  rw [Nfa.run_eq_answer, Tree.alphabet_automaton, Tree.language_automaton hOver]

/-- The automaton of a tree gives the verdict of the tree's language on every word over the
alphabet. -/
theorem Tree.run_automaton (hOver : t.Over alphabet) {word : Word}
    (hWord : ∀ a ∈ word, a ∈ alphabet) :
    ((t.automaton alphabet).run word = .ok true ↔ word ∈ t.language) ∧
      ((t.automaton alphabet).run word = .ok false ↔ word ∉ t.language) := by
  have hKnown : ∀ a ∈ word, a ∈ (t.automaton alphabet).alphabet := by
    rwa [Tree.alphabet_automaton]
  rw [← Tree.language_automaton hOver]
  exact Nfa.run_verdict_iff hKnown

end Acceptors.Regex
