import Acceptors.Proofs.Regex.Compilation
import Acceptors.Proofs.Regex.Recognition

/-! The faults of expressions. An expression outside of the grammar has unbalanced parentheses, or
consists of nested parentheses only, or lacks an operand of some operator. Operands are never left
over. -/
namespace Acceptors.Regex

variable {text : List Char} {depth : Nat} {r : Regex}

/-! Texts of parentheses only. -/

/-- Opening parentheses, and as many closing ones behind them. -/
def nested (depth : Nat) : List Char := List.replicate depth '(' ++ List.replicate depth ')'

/-- Every parenthesis that opens in front is one more to be closed. -/
theorem closes_replicate_opening (i : Nat) :
    Closes depth ((List.replicate i '(' ++ text).map Token.ofChar) ↔
      Closes (depth + i) (text.map Token.ofChar) := by
  induction i generalizing depth with
  | zero => rfl
  | succ i ih =>
      have hDepth : depth + (i + 1) = depth + 1 + i := by omega
      rw [hDepth]
      exact ih

theorem closes_replicate_closing (j : Nat) :
    Closes depth ((List.replicate j ')').map Token.ofChar) ↔ depth = j := by
  induction j generalizing depth with
  | zero => rfl
  | succ j ih =>
      cases depth with
      | zero => exact iff_of_false id (Nat.succ_ne_zero j).symm
      | succ depth => exact ih.trans Nat.succ_inj.symm

/-- Parentheses are not listed, and no concatenation is put in among them. -/
theorem filterMap_tokensOf_parentheses (i j : Nat) :
    (tokensOf (List.replicate i '(' ++ List.replicate j ')')).filterMap Token.instruction? =
      [] := by
  induction j with
  | zero =>
      induction i with
      | zero => rfl
      | succ i ih =>
          rw [List.replicate_succ, List.cons_append, ← List.singleton_append,
            tokensOf_append_of_last ['('] _ rfl, List.filterMap_append, ih]
          rfl
  | succ j ih =>
      rw [List.replicate_succ', ← List.append_assoc, tokensOf_append_of_first _ [')'] rfl,
        List.filterMap_append, ih]
      rfl

/-- Every other character is listed. -/
theorem parenthesis_of_no_instruction {c : Char} (hNone : (Token.ofChar c).instruction? = none) :
    c = '(' ∨ c = ')' := by
  by_contra hOther
  rw [not_or] at hOther
  rw [Token.ofChar, if_neg hOther.1, if_neg hOther.2] at hNone
  split_ifs at hNone <;> cases hNone

/-- Behind a closing parenthesis no group opens, or a concatenation would be put in. -/
theorem eq_parentheses_of_no_instruction
    (hNone : (tokensOf text).filterMap Token.instruction? = []) :
    ∃ i j, text = List.replicate i '(' ++ List.replicate j ')' := by
  induction text with
  | nil => exact ⟨0, 0, rfl⟩
  | cons c text ih =>
      rw [← List.singleton_append, tokensOf_append, List.filterMap_append, List.filterMap_append,
        List.append_eq_nil_iff, List.append_eq_nil_iff] at hNone
      obtain ⟨⟨hFirst, hSeam⟩, hRest⟩ := hNone
      obtain ⟨i, j, rfl⟩ := ih hRest
      have hToken := List.filterMap_eq_nil_iff.mp hFirst _ List.mem_cons_self
      rcases parenthesis_of_no_instruction hToken with rfl | rfl
      · exact ⟨i + 1, j, rfl⟩
      · cases i with
        | zero => exact ⟨0, j + 1, rfl⟩
        | succ i => exact absurd hSeam (List.cons_ne_nil _ _)

/-- Opening parentheses before closing ones are balanced if there are as many of both. -/
theorem not_unbalanced_parentheses_iff (i j : Nat) :
    ¬ Unbalanced (List.replicate i '(' ++ List.replicate j ')') ↔ i = j := by
  rw [← closes_tokensOf_iff, tokensOf, closes_withConcatenations, closes_replicate_opening,
    closes_replicate_closing, Nat.zero_add]

/-! The listing of an expression. -/

/-- A listing holds the tokens of its expression other than parentheses. -/
theorem instructions_perm {listing : List Instruction} (hListing : r.instructions = .ok listing) :
    listing.Perm ((tokensOf r.expression.toList).filterMap Token.instruction?) := by
  by_cases hCloses : Closes 0 (tokensOf r.expression.toList)
  · obtain ⟨other, hOther, hPerm⟩ := exists_postfixOf_eq hCloses
    obtain rfl : other = listing := Except.ok.inj (hOther.symm.trans hListing)
    exact hPerm
  · cases (postfixOf_eq_error hCloses).symm.trans hListing

theorem gain_instructions {listing : List Instruction} (hListing : r.instructions = .ok listing) :
    gain listing = gain ((tokensOf r.expression.toList).filterMap Token.instruction?) :=
  gain_perm (instructions_perm hListing)

/-- No operand is left over beside the last one. -/
theorem length_operands_le {listing : List Instruction} {operands : List Tree}
    (hListing : r.instructions = .ok listing) (hPerform : performAll listing [] = .ok operands) :
    operands.length ≤ 1 := by
  have hLength := length_of_performAll hPerform
  have hGain := gain_tokensOf_le r.expression.toList
  rw [← gain_instructions hListing] at hGain
  rw [List.length_nil] at hLength
  omega

/-- Parentheses are matched before any operand is looked for. -/
theorem tree_of_unbalanced (hUnbalanced : Unbalanced r.expression.toList) :
    r.tree = .error .mismatchedParentheses := by
  have hOpen : ¬ Closes 0 (tokensOf r.expression.toList) := fun hCloses =>
    closes_tokensOf_iff.mp hCloses hUnbalanced
  have hListing : r.instructions = .error .mismatchedParentheses := postfixOf_eq_error hOpen
  rw [tree, hListing]
  rfl

/-- The listing is empty, so that no operand is missed, and none is left either. -/
theorem tree_of_nested (hNested : r.expression.toList = nested depth) :
    r.tree = .error .malformed := by
  have hCloses : Closes 0 (tokensOf r.expression.toList) := by
    rw [closes_tokensOf_iff, hNested, nested, not_unbalanced_parentheses_iff]
  obtain ⟨listing, hListing, hPerm⟩ := exists_postfixOf_eq hCloses
  rw [hNested, nested, filterMap_tokensOf_parentheses, List.perm_nil] at hPerm
  subst hPerm
  have hEmpty : r.instructions = .ok [] := hListing
  rw [tree, hEmpty]
  rfl

/-- An expression with balanced parentheses that is not only parentheses belongs to the grammar or
lacks an operand. -/
theorem spells_or_missingOperand (hBalanced : ¬ Unbalanced r.expression.toList)
    (hOther : ∀ depth, r.expression.toList ≠ nested depth) :
    (∃ t, Spells r.alphabet .union t r.expression.toList) ∨
      ∃ c ∈ ['*', '⋅', '∪'], r.tree = .error (.missingOperand c) := by
  obtain ⟨listing, hPostfix, hPerm⟩ := exists_postfixOf_eq (closes_tokensOf_iff.mpr hBalanced)
  have hListing : r.instructions = .ok listing := hPostfix
  have hTree : r.tree = Tree.ofPostfix listing := by
    rw [tree, hListing]
    rfl
  have hGainLe := gain_tokensOf_le r.expression.toList
  rcases performAll_outcomes listing [] with ⟨operands, _, hLength, hLeft⟩ | ⟨c, hc, hFault⟩
  · rw [gain_instructions hListing, List.length_nil] at hLength
    by_cases hNone : listing = []
    · -- Nothing is listed, so that there are only parentheses.
      rw [hNone] at hPerm
      obtain ⟨i, j, hText⟩ := eq_parentheses_of_no_instruction hPerm.nil_eq.symm
      rw [hText, not_unbalanced_parentheses_iff] at hBalanced
      exact absurd (hBalanced ▸ hText) (hOther i)
    · have hOperand := List.length_pos_of_ne_nil (hLeft (Or.inr hNone))
      have hGain : gain ((tokensOf r.expression.toList).filterMap Token.instruction?) = 1 := by
        omega
      exact Or.inl (exists_spells_of_gain r.symbol_not_reserved r.character_known hBalanced hGain)
  · refine Or.inr ⟨c, hc, ?_⟩
    rw [hTree, Tree.ofPostfix, hFault]

/-- An expression belongs to the grammar or has one of three faults. -/
theorem tree_outcomes (r : Regex) :
    (∃ t, Spells r.alphabet .union t r.expression.toList) ∨ Unbalanced r.expression.toList ∨
      (∃ depth, r.expression.toList = nested depth) ∨
      ∃ c ∈ ['*', '⋅', '∪'], r.tree = .error (.missingOperand c) := by
  by_cases hUnbalanced : Unbalanced r.expression.toList
  · exact Or.inr (Or.inl hUnbalanced)
  · by_cases hNested : ∃ depth, r.expression.toList = nested depth
    · exact Or.inr (Or.inr (Or.inl hNested))
    · rcases spells_or_missingOperand hUnbalanced (not_exists.mp hNested) with hSpells | hMissing
      · exact Or.inl hSpells
      · exact Or.inr (Or.inr (Or.inr hMissing))

/-- An expression has a tree exactly if it follows the grammar. -/
theorem exists_tree_iff :
    (∃ t, r.tree = .ok t) ↔ ∃ t, Spells r.alphabet .union t r.expression.toList := by
  constructor
  · rintro ⟨t, hTree⟩
    rcases tree_outcomes r with hSpells | hUnbalanced | ⟨depth, hNested⟩ | ⟨c, _, hMissing⟩
    · exact hSpells
    · cases hTree.symm.trans (tree_of_unbalanced hUnbalanced)
    · cases hTree.symm.trans (tree_of_nested hNested)
    · cases hTree.symm.trans hMissing
  · rintro ⟨t, hSpells⟩
    exact ⟨t, hSpells.tree_eq⟩

theorem tree_eq_mismatchedParentheses_iff :
    r.tree = .error .mismatchedParentheses ↔ Unbalanced r.expression.toList := by
  constructor
  · intro hTree
    rcases tree_outcomes r with ⟨t, hSpells⟩ | hUnbalanced | ⟨depth, hNested⟩ | ⟨c, _, hMissing⟩
    · cases hTree.symm.trans hSpells.tree_eq
    · exact hUnbalanced
    · cases hTree.symm.trans (tree_of_nested hNested)
    · cases hTree.symm.trans hMissing
  · exact tree_of_unbalanced

theorem tree_eq_malformed_iff :
    r.tree = .error .malformed ↔ ∃ depth, r.expression.toList = nested depth := by
  constructor
  · intro hTree
    rcases tree_outcomes r with ⟨t, hSpells⟩ | hUnbalanced | hNested | ⟨c, _, hMissing⟩
    · cases hTree.symm.trans hSpells.tree_eq
    · cases hTree.symm.trans (tree_of_unbalanced hUnbalanced)
    · exact hNested
    · cases hTree.symm.trans hMissing
  · rintro ⟨depth, hNested⟩
    exact tree_of_nested hNested

/-- Any other expression outside of the grammar lacks an operand. -/
theorem tree_eq_missingOperand_iff :
    (∃ c ∈ ['*', '⋅', '∪'], r.tree = .error (.missingOperand c)) ↔
      (¬ ∃ t, Spells r.alphabet .union t r.expression.toList) ∧
        (¬ Unbalanced r.expression.toList) ∧ ¬ ∃ depth, r.expression.toList = nested depth := by
  constructor
  · rintro ⟨c, _, hTree⟩
    rw [← exists_tree_iff, ← tree_eq_mismatchedParentheses_iff, ← tree_eq_malformed_iff]
    simp [hTree]
  · rintro ⟨hSpells, hBalanced, hOther⟩
    exact (((tree_outcomes r).resolve_left hSpells).resolve_left hBalanced).resolve_left hOther

theorem exists_automaton_iff : (∃ n, r.automaton = .ok n) ↔ ∃ t, r.tree = .ok t := by
  rw [automaton]
  cases r.tree <;> simp [Except.map]

theorem automaton_eq_error_iff {fault : RegexError} :
    r.automaton = .error fault ↔ r.tree = .error fault := by
  rw [automaton]
  cases r.tree <;> simp [Except.map]

/-- What an expression compiles to is the automaton of the tree that it spells. -/
theorem exists_spells_of_automaton {n : Nfa} (hAutomaton : r.automaton = .ok n) :
    ∃ t, Spells r.alphabet .union t r.expression.toList ∧ n = t.automaton r.alphabet := by
  obtain ⟨t, hTree⟩ := exists_automaton_iff.mp ⟨n, hAutomaton⟩
  obtain ⟨u, hSpells⟩ := exists_tree_iff.mp ⟨t, hTree⟩
  rw [automaton, hSpells.tree_eq] at hAutomaton
  exact ⟨u, hSpells, (Except.ok.inj hAutomaton).symm⟩

/-- All symbols of an expression are in its alphabet, which is all that is needed. -/
theorem wellFormed_of_automaton {n : Nfa} (hAutomaton : r.automaton = .ok n) : n.WellFormed := by
  obtain ⟨t, hSpells, rfl⟩ := exists_spells_of_automaton hAutomaton
  exact Tree.wellFormed_automaton hSpells.tree_over

/-- Exactly the expressions of the grammar compile. Of the others, those with unbalanced
parentheses and those of nested parentheses only have faults of their own, and all that remain
lack an operand. Operands are never left over. -/
theorem automaton_outcomes (r : Regex) :
    ((∃ n, r.automaton = .ok n) ↔ ∃ t, Spells r.alphabet .union t r.expression.toList) ∧
      (r.automaton = .error .mismatchedParentheses ↔ Unbalanced r.expression.toList) ∧
      (r.automaton = .error .malformed ↔ ∃ depth, r.expression.toList = nested depth) ∧
      ((∃ c ∈ ['*', '⋅', '∪'], r.automaton = .error (.missingOperand c)) ↔
        (¬ ∃ t, Spells r.alphabet .union t r.expression.toList) ∧
          (¬ Unbalanced r.expression.toList) ∧
          ¬ ∃ depth, r.expression.toList = nested depth) ∧
      ¬ ∃ listing operands, r.instructions = .ok listing ∧
        performAll listing [] = .ok operands ∧ 1 < operands.length := by
  simp only [exists_automaton_iff, automaton_eq_error_iff]
  refine ⟨exists_tree_iff, tree_eq_mismatchedParentheses_iff, tree_eq_malformed_iff,
    tree_eq_missingOperand_iff, ?_⟩
  rintro ⟨listing, operands, hListing, hPerform, hMany⟩
  exact Nat.not_lt_of_le (length_operands_le hListing hPerform) hMany

/-- The star is listed behind the symbol before the group, and the symbol in the group takes the
operand that the second concatenation needs. -/
example : (ofText (Alphabet.ofString "a") "a(*a)").bind automaton = .error (.missingOperand '⋅') :=
  rfl

end Acceptors.Regex
