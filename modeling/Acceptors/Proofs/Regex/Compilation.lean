import Acceptors.Proofs.Regex.Language
import Acceptors.Proofs.Regex.Postfix

/-! The compilation of expressions that follow the grammar. Such an expression is accepted, is
read as the one tree that it spells, and becomes an automaton for the language of this tree. -/
namespace Acceptors.Regex

open Computability

variable {alphabet : Alphabet} {expression : String} {phrase : Phrase} {t : Tree}
  {text : List Char}

/-- An alphabet without reserved symbols and an expression of known characters are accepted. -/
theorem ofText_eq_ok (hAlphabet : ∀ c ∈ alphabet, c ∉ reservedSymbols)
    (hKnown : ∀ c ∈ expression.toList, c ∈ reservedSymbols ∨ c ∈ alphabet) :
    ofText alphabet expression = .ok ⟨alphabet, expression, hAlphabet, hKnown⟩ := by
  rw [ofText]
  split
  · next c hReserved =>
      have hc := List.mem_of_find?_eq_some hReserved
      have hBad := List.find?_some hReserved
      exact absurd (of_decide_eq_true hBad) (hAlphabet c hc)
  · split
    · next c hUnknown =>
        have hc := List.mem_of_find?_eq_some hUnknown
        have hBad := List.find?_some hUnknown
        rw [Bool.and_eq_true, decide_eq_true_eq, decide_eq_true_eq] at hBad
        rcases hKnown c hc with hIn | hIn
        · exact absurd hIn hBad.1
        · exact absurd hIn hBad.2
    · rfl

/-- An accepted expression is over the alphabet that was given. -/
theorem eq_of_ofText {r : Regex} (hText : ofText alphabet expression = .ok r) :
    r.alphabet = alphabet ∧ r.expression = expression := by
  rw [ofText] at hText
  split at hText
  · cases hText
  · split at hText
    · cases hText
    · cases hText
      exact ⟨rfl, rfl⟩

theorem tree_of_postorder {r : Regex} (hListing : r.instructions = .ok t.postorder) :
    r.tree = .ok t := by
  rw [tree, hListing]
  exact ofPostfix_postorder t

namespace Spells

theorem known (hSpells : Spells alphabet phrase t text) :
    ∀ c ∈ text, c ∈ reservedSymbols ∨ c ∈ alphabet := by
  induction hSpells with
  | symbol hc => simp [hc]
  | emptySet | emptyWord => simp [reservedSymbols]
  | once _ ih | factor _ ih | summand _ ih => exact ih
  | group _ ih | star _ ih =>
      simp only [List.cons_append, List.forall_mem_cons, List.forall_mem_append]
      simpa [reservedSymbols] using ih
  | juxtapose _ _ ihLeft ihRight => exact List.forall_mem_append.mpr ⟨ihLeft, ihRight⟩
  | concatenate _ _ ihLeft ihRight | unite _ _ ihLeft ihRight =>
      rw [List.forall_mem_append, List.forall_mem_cons]
      exact ⟨ihLeft, Or.inl (by simp [reservedSymbols]), ihRight⟩

theorem tree_over (hSpells : Spells alphabet phrase t text) : t.Over alphabet := by
  induction hSpells with
  | symbol hc => exact hc
  | emptySet | emptyWord => trivial
  | group _ ih | once _ ih | star _ ih | factor _ ih | summand _ ih => exact ih
  | juxtapose _ _ ihLeft ihRight | concatenate _ _ ihLeft ihRight | unite _ _ ihLeft ihRight =>
      exact ⟨ihLeft, ihRight⟩

/-- The grammar is unambiguous: a text spells one tree at most. -/
theorem tree_unique (hAlphabet : ∀ c ∈ alphabet, c ∉ reservedSymbols) {other : Phrase} {u : Tree}
    (hFirst : Spells alphabet phrase t text) (hSecond : Spells alphabet other u text) : t = u :=
  (hFirst.toInfix hAlphabet).tree_unique (hSecond.toInfix hAlphabet)

/-- An expression is listed in the postorder of the tree that it spells. -/
theorem instructions_eq {r : Regex} (hSpells : Spells r.alphabet phrase t r.expression.toList) :
    r.instructions = .ok t.postorder :=
  postfixOf_eq_postorder (hSpells.toInfix r.symbol_not_reserved)

/-- An expression is read as the tree that it spells. -/
theorem tree_eq {r : Regex} (hSpells : Spells r.alphabet phrase t r.expression.toList) :
    r.tree = .ok t :=
  tree_of_postorder hSpells.instructions_eq

end Spells

/-- Every expression of the grammar compiles, and the automaton decides the language of the tree
that the expression spells. -/
theorem automaton_decides_language (hAlphabet : ∀ c ∈ alphabet, c ∉ reservedSymbols)
    (hSpells : Spells alphabet .union t expression.toList) :
    ∃ r n, ofText alphabet expression = .ok r ∧ r.automaton = .ok n ∧
      ∀ word : Word, (∀ a ∈ word, a ∈ alphabet) →
        (n.run word = .ok true ↔ word ∈ t.language) ∧
          (n.run word = .ok false ↔ word ∉ t.language) := by
  have hText := ofText_eq_ok hAlphabet hSpells.known
  refine ⟨_, t.automaton alphabet, hText, ?_, ?_⟩
  · rw [automaton, Spells.tree_eq hSpells]
    rfl
  · intro word hWord
    exact Tree.run_automaton hSpells.tree_over hWord

/-- A star over a union in parentheses, concatenations of both spellings and a union with the
repetition of nothing, in one expression. -/
theorem automaton_decides_language_nested :
    (∀ c ∈ Alphabet.ofString "ab", c ∉ reservedSymbols) ∧
      ∃ t, Spells (Alphabet.ofString "ab") .union t "(a∪b)*a⋅b∪∅*".toList ∧
        ∃ r n, ofText (Alphabet.ofString "ab") "(a∪b)*a⋅b∪∅*" = .ok r ∧ r.automaton = .ok n ∧
          n.run ['b', 'a', 'b'] = .ok true ∧ n.run ['b', 'a'] = .ok false := by
  have hAlphabet : ∀ c ∈ Alphabet.ofString "ab", c ∉ reservedSymbols := by
    simp [reservedSymbols]
  have ha : 'a' ∈ Alphabet.ofString "ab" := by decide
  have hb : 'b' ∈ Alphabet.ofString "ab" := by decide
  have hLetter : ∀ {c : Char}, c ∈ Alphabet.ofString "ab" →
      Spells (Alphabet.ofString "ab") .repetition (.atom (.symbol c)) [c] :=
    fun hc => .once (.symbol hc)
  have hGroup := Spells.group (.unite (.summand (.factor (hLetter ha))) (.factor (hLetter hb)))
  have hChain := Spells.concatenate (.juxtapose (.factor (.star (.once hGroup))) (hLetter ha))
    (hLetter hb)
  have hUnion := Spells.unite (.summand hChain) (.factor (.star (.once .emptySet)))
  have hSpells : Spells (.ofString "ab") .union _ "(a∪b)*a⋅b∪∅*".toList := hUnion
  obtain ⟨r, n, hText, hAutomaton, hRun⟩ := automaton_decides_language hAlphabet hSpells
  have hAccepted : n.run ['b', 'a', 'b'] = .ok true := by
    apply (hRun ['b', 'a', 'b'] (by simp)).1.mpr
    have hStar : ['b'] ∈ ({['a']} + {['b']} : Language Char)∗ :=
      Language.mem_kstar.mpr ⟨[['b']], rfl, List.forall_mem_singleton.mpr (Or.inr rfl)⟩
    exact Or.inl ⟨['b', 'a'], ⟨['b'], hStar, ['a'], rfl, rfl⟩, ['b'], rfl, rfl⟩
  have hRejected : n.run ['b', 'a'] = .ok false := by
    apply (hRun ['b', 'a'] (by simp)).2.mpr
    intro hWord
    rcases hWord with hChain | hNothing
    · obtain ⟨front, _, last, hLast, hEnd⟩ := hChain
      obtain rfl : last = ['b'] := hLast
      have hEnd : front ++ ['b'] = ['b'] ++ ['a'] := hEnd
      exact absurd (List.append_inj_right' hEnd rfl) (by decide)
    · have hWord : ['b', 'a'] ∈ (0 : Language Char)∗ := hNothing
      rw [kstar_zero, Language.mem_one] at hWord
      cases hWord
  exact ⟨hAlphabet, _, hSpells, r, n, hText, hAutomaton, hAccepted, hRejected⟩

end Acceptors.Regex
