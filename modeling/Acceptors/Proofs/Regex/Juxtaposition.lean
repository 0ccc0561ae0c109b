import Acceptors.Proofs.Regex.Notation

/-! Concatenations that are left out. An expression in which they are all written out has the same
tokens as before, so that it has the same postfix notation and the same automaton, or the same
fault. Nothing is asked of the expression: it may be outside of the grammar. -/
namespace Acceptors.Regex

variable {alphabet : Alphabet} {text : List Char} {c d : Char} {r s : Regex}

/-! The places where a concatenation is left out. -/

def EndsOperand (alphabet : Alphabet) (c : Char) : Prop :=
  c ∈ alphabet ∨ c ∈ ['∅', 'ε', '*', ')']

def StartsOperand (alphabet : Alphabet) (c : Char) : Prop :=
  c ∈ alphabet ∨ c ∈ ['∅', 'ε', '(']

instance : Decidable (EndsOperand alphabet c) :=
  inferInstanceAs (Decidable (c ∈ alphabet ∨ c ∈ ['∅', 'ε', '*', ')']))

instance : Decidable (StartsOperand alphabet c) :=
  inferInstanceAs (Decidable (c ∈ alphabet ∨ c ∈ ['∅', 'ε', '(']))

/-- The text with a concatenation wherever one operand may end and the next may start. -/
def writtenOut (alphabet : Alphabet) : List Char → List Char
  | [] => []
  | [c] => [c]
  | c :: d :: rest =>
    if EndsOperand alphabet c ∧ StartsOperand alphabet d then
      c :: '⋅' :: writtenOut alphabet (d :: rest)
    else c :: writtenOut alphabet (d :: rest)

theorem mem_writtenOut (hc : c ∈ writtenOut alphabet text) : c ∈ text ∨ c = '⋅' := by
  induction text using writtenOut.induct alphabet with
  | case1 => exact Or.inl hc
  | case2 => exact Or.inl hc
  | case3 first next rest hBetween ih =>
      rw [writtenOut, if_pos hBetween] at hc
      grind
  | case4 first next rest hBetween ih =>
      rw [writtenOut, if_neg hBetween] at hc
      grind

/-- No text is written out to one that starts otherwise. -/
theorem writtenOut_cons (alphabet : Alphabet) (c : Char) (text : List Char) :
    ∃ rest, writtenOut alphabet (c :: text) = c :: rest := by
  cases text with
  | nil => exact ⟨[], rfl⟩
  | cons d text =>
      rw [writtenOut]
      split
      · exact ⟨_, rfl⟩
      · exact ⟨_, rfl⟩

/-! The same places among tokens. -/

section Known

variable (hAlphabet : ∀ c ∈ alphabet, c ∉ reservedSymbols)
include hAlphabet

/-- A test that all symbols pass, on the characters that an expression may have. -/
theorem test_ofChar_iff {test : Token → Bool} {marks : List Char}
    (hSymbol : ∀ c, test (.atom (.symbol c)) = true)
    (hReserved : ∀ c ∈ reservedSymbols, test (Token.ofChar c) = true ↔ c ∈ marks)
    (hKnown : c ∈ reservedSymbols ∨ c ∈ alphabet) :
    test (Token.ofChar c) = true ↔ c ∈ alphabet ∨ c ∈ marks := by
  rcases hKnown with hc | hc
  · have hNot : c ∉ alphabet := fun hIn => hAlphabet c hIn hc
    rw [or_iff_right hNot]
    exact hReserved c hc
  · rw [Token.ofChar_of_not_reserved (hAlphabet c hc)]
    exact iff_of_true (hSymbol c) (Or.inl hc)

theorem endsOperand_ofChar_iff (hKnown : c ∈ reservedSymbols ∨ c ∈ alphabet) :
    (Token.ofChar c).endsOperand = true ↔ EndsOperand alphabet c := by
  apply test_ofChar_iff hAlphabet (fun _ => rfl) _ hKnown
  simp [reservedSymbols, Token.ofChar, Token.endsOperand]

theorem startsOperand_ofChar_iff (hKnown : c ∈ reservedSymbols ∨ c ∈ alphabet) :
    (Token.ofChar c).startsOperand = true ↔ StartsOperand alphabet c := by
  apply test_ofChar_iff hAlphabet (fun _ => rfl) _ hKnown
  simp [reservedSymbols, Token.ofChar, Token.startsOperand]

/-- The reader puts a concatenation between two characters where it may be left out. -/
theorem tokensOf_cons_cons (hc : c ∈ reservedSymbols ∨ c ∈ alphabet)
    (hd : d ∈ reservedSymbols ∨ d ∈ alphabet) (rest : List Char) :
    tokensOf (c :: d :: rest) =
      if EndsOperand alphabet c ∧ StartsOperand alphabet d then
        Token.ofChar c :: .operator .concatenation :: tokensOf (d :: rest)
      else Token.ofChar c :: tokensOf (d :: rest) := by
  have hBetween : ((Token.ofChar c).endsOperand && (Token.ofChar d).startsOperand) = true ↔
      EndsOperand alphabet c ∧ StartsOperand alphabet d := by
    rw [Bool.and_eq_true, endsOperand_ofChar_iff hAlphabet hc,
      startsOperand_ofChar_iff hAlphabet hd]
  simp only [← hBetween]
  rfl

/-- What is put in between tokens is what is written out between their characters. -/
theorem map_toChar_tokensOf (hKnown : ∀ c ∈ text, c ∈ reservedSymbols ∨ c ∈ alphabet) :
    (tokensOf text).map Token.toChar = writtenOut alphabet text := by
  induction text using writtenOut.induct alphabet with
  | case1 => rfl
  | case2 c => exact congrArg (· :: []) (Token.toChar_ofChar c)
  | case3 c d rest hBetween ih =>
      have hRest := (List.forall_mem_cons.mp hKnown).2
      have hTokens := tokensOf_cons_cons hAlphabet (hKnown c (by simp)) (hKnown d (by simp)) rest
      rw [hTokens, writtenOut, if_pos hBetween, if_pos hBetween, ← ih hRest, List.map_cons,
        List.map_cons, Token.toChar_ofChar]
      rfl
  | case4 c d rest hBetween ih =>
      have hRest := (List.forall_mem_cons.mp hKnown).2
      have hTokens := tokensOf_cons_cons hAlphabet (hKnown c (by simp)) (hKnown d (by simp)) rest
      rw [hTokens, writtenOut, if_neg hBetween, if_neg hBetween, ← ih hRest, List.map_cons,
        Token.toChar_ofChar]

/-- Writing the concatenations out leaves the reader nothing to put in. -/
theorem tokensOf_writtenOut (hKnown : ∀ c ∈ text, c ∈ reservedSymbols ∨ c ∈ alphabet) :
    tokensOf (writtenOut alphabet text) = tokensOf text := by
  induction text using writtenOut.induct alphabet with
  | case1 => rfl
  | case2 => rfl
  | case3 c d rest hBetween ih =>
      have hRest := (List.forall_mem_cons.mp hKnown).2
      have hc := hKnown c (by simp)
      have hd := hKnown d (by simp)
      have hOperator := tokensOf_operator .concatenation [c] (writtenOut alphabet (d :: rest))
      rw [Operator.toChar, List.singleton_append] at hOperator
      rw [writtenOut, if_pos hBetween, hOperator, ih hRest,
        tokensOf_cons_cons hAlphabet hc hd, if_pos hBetween]
      rfl
  | case4 c d rest hBetween ih =>
      have hRest := (List.forall_mem_cons.mp hKnown).2
      have hc := hKnown c (by simp)
      have hd := hKnown d (by simp)
      obtain ⟨more, hMore⟩ := writtenOut_cons alphabet d rest
      rw [writtenOut, if_neg hBetween, tokensOf_cons_cons hAlphabet hc hd, if_neg hBetween,
        ← ih hRest, hMore, tokensOf_cons_cons hAlphabet hc hd, if_neg hBetween]

end Known

/-! Results depend on the tokens only. -/

/-- The postfix notation and its faults depend on the tokens only. -/
theorem toPostfix_congr (hTokens : r.tokens = s.tokens) : r.toPostfix = s.toPostfix := by
  rw [toPostfix, toPostfix, instructions, instructions, hTokens]

/-- The automaton and its faults depend on the tokens and the alphabet only. -/
theorem automaton_congr (hAlphabet : r.alphabet = s.alphabet) (hTokens : r.tokens = s.tokens) :
    r.automaton = s.automaton := by
  rw [automaton, automaton, tree, tree, instructions, instructions, hTokens, hAlphabet]

/-- An expression in which all concatenations are written out is accepted over the same alphabet. It
consists of the characters of the tokens of the first expression, and has the same tokens itself. So
it has the same postfix notation and the same automaton, or the same fault in their place. -/
theorem writtenOut_same_results (r : Regex) :
    ∃ s, ofText r.alphabet (String.ofList (writtenOut r.alphabet r.expression.toList)) = .ok s ∧
      s.alphabet = r.alphabet ∧
      s.expression.toList = writtenOut r.alphabet r.expression.toList ∧
      s.expression.toList = r.tokens.map Token.toChar ∧
      s.tokens = r.tokens ∧ s.toPostfix = r.toPostfix ∧ s.automaton = r.automaton := by
  have hAlphabet := r.symbol_not_reserved
  have hKnown := r.character_known
  have hText : ∀ c ∈ (String.ofList (writtenOut r.alphabet r.expression.toList)).toList,
      c ∈ reservedSymbols ∨ c ∈ r.alphabet := by
    intro c hc
    rw [String.toList_ofList] at hc
    rcases mem_writtenOut hc with hOld | rfl
    · exact hKnown c hOld
    · exact Or.inl (by decide)
  obtain ⟨s, hAccepted⟩ : ∃ s, ofText r.alphabet _ = .ok s := ⟨_, ofText_eq_ok hAlphabet hText⟩
  obtain ⟨hSame, hExpression⟩ := eq_of_ofText hAccepted
  have hWritten : s.expression.toList = writtenOut r.alphabet r.expression.toList := by
    rw [hExpression, String.toList_ofList]
  have hTokens : s.tokens = r.tokens := by
    change tokensOf s.expression.toList = tokensOf r.expression.toList
    rw [hWritten, tokensOf_writtenOut hAlphabet hKnown]
  have hCharacters : s.expression.toList = r.tokens.map Token.toChar := by
    rw [hWritten, ← map_toChar_tokensOf hAlphabet hKnown]
    rfl
  exact ⟨s, hAccepted, hSame, hWritten, hCharacters, hTokens, toPostfix_congr hTokens,
    automaton_congr hSame hTokens⟩

/-- Behind a star and a group an operand may be left to follow, also in an expression with a
parenthesis too many. -/
example : writtenOut (Alphabet.ofString "ab") "(a∪b)*a(∅ε⋅b))".toList =
    "(a∪b)*⋅a⋅(∅⋅ε⋅b))".toList := by
  decide

end Acceptors.Regex
