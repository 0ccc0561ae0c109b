import Acceptors.Proofs.Regex.Faults

/-! Infix and postfix notation of a tree. Every tree has a spelling, all its spellings have the
same postfix notation, which is the listing of the tree in postorder, and no other expression has
it: as alphabets contain no reserved symbol, a listing can be read back from its characters. -/
namespace Acceptors.Regex

variable {alphabet : Alphabet} {text : List Char} {t : Tree} {r : Regex}
  {listing : List Instruction}

/-- The postfix notation of a tree: operands from left to right, each operator behind its
operands. -/
def Tree.toPostfix (t : Tree) : String := String.ofList (t.postorder.map Instruction.toChar)

/-! The spelling with all parentheses. -/

def parenthesized (text : List Char) : List Char := '(' :: text ++ [')']

/-- The spelling of a tree in which every operand is in parentheses. -/
def Tree.spelling : Tree → List Char
  | atom a => [a.toChar]
  | star operand => parenthesized operand.spelling ++ ['*']
  | binary o left right => parenthesized left.spelling ++ o.toChar :: parenthesized right.spelling

/-- Where every operand is in parentheses, no operator binds across them. -/
theorem Tree.spells_spelling (hTree : t.Over alphabet) :
    Spells alphabet .union t t.spelling := by
  induction t with
  | atom a =>
      cases a with
      | symbol c => exact .summand (.factor (.once (.symbol hTree)))
      | emptySet => exact .summand (.factor (.once .emptySet))
      | emptyWord => exact .summand (.factor (.once .emptyWord))
  | star operand ih => exact .summand (.factor (.star (.once (.group (ih hTree)))))
  | binary o left right ihLeft ihRight =>
      have hLeft := Spells.factor (.once (.group (ihLeft hTree.1)))
      have hRight := Spells.once (.group (ihRight hTree.2))
      cases o with
      | union => exact .unite (.summand hLeft) (.factor hRight)
      | concatenation => exact .summand (.concatenate hLeft hRight)

/-! Reading a listing back from its characters. -/

theorem Token.toChar_ofChar (c : Char) : (Token.ofChar c).toChar = c := by
  rw [ofChar]
  split_ifs with hOpening hClosing hStar hConcatenation hUnion hEmptySet hEmptyWord
  · exact hOpening.symm
  · exact hClosing.symm
  · exact hStar.symm
  · exact hConcatenation.symm
  · exact hUnion.symm
  · exact hEmptySet.symm
  · exact hEmptyWord.symm
  · rfl

/-- The tokens of a text can be read from their characters again. -/
theorem ofChar_toChar_of_mem_tokensOf :
    ∀ token ∈ tokensOf text, Token.ofChar token.toChar = token := by
  induction text with
  | nil =>
      intro token hToken
      cases hToken
  | cons c text ih =>
      intro token hToken
      rw [← List.singleton_append, tokensOf_append, List.mem_append, List.mem_append] at hToken
      rcases hToken with (hFirst | hSeam) | hRest
      · obtain rfl : token = Token.ofChar c := List.mem_singleton.mp hFirst
        rw [Token.toChar_ofChar]
      · rw [Token.seam] at hSeam
        split at hSeam
        · obtain rfl := List.mem_singleton.mp hSeam
          rfl
        · cases hSeam
      · exact ih token hRest

theorem toChar_of_instruction? {token : Token} {i : Instruction}
    (hToken : token.instruction? = some i) : i.toChar = token.toChar := by
  cases token <;> cases hToken <;> rfl

/-- The entries of a listing are determined by their characters. -/
def Legible (listing : List Instruction) : Prop :=
  ∀ i ∈ listing, (Token.ofChar i.toChar).instruction? = some i

/-- A legible listing is read back from its characters one by one. -/
theorem Legible.read_back (hListing : Legible listing) :
    (listing.map Instruction.toChar).filterMap (fun c => (Token.ofChar c).instruction?) =
      listing := by
  induction listing with
  | nil => rfl
  | cons i listing ih =>
      obtain ⟨hFirst, hRest⟩ := List.forall_mem_cons.mp hListing
      rw [List.map_cons, List.filterMap_cons, hFirst]
      exact congrArg (i :: ·) (ih hRest)

theorem Legible.eq_of_map_toChar {other : List Instruction} (hListing : Legible listing)
    (hOther : Legible other)
    (hSame : listing.map Instruction.toChar = other.map Instruction.toChar) : listing = other := by
  rw [← hListing.read_back, hSame, hOther.read_back]

/-- The listing of an expression is legible, since it comes from the characters of a text. -/
theorem legible_instructions (hListing : r.instructions = .ok listing) : Legible listing := by
  intro i hi
  have hTokens := (instructions_perm hListing).mem_iff.mp hi
  obtain ⟨token, hToken, hInstruction⟩ := List.mem_filterMap.mp hTokens
  rw [toChar_of_instruction? hInstruction, ofChar_toChar_of_mem_tokensOf token hToken]
  exact hInstruction

/-- No symbol of an alphabet is taken for an operator. -/
theorem Tree.legible_postorder (hAlphabet : ∀ c ∈ alphabet, c ∉ reservedSymbols)
    (hTree : t.Over alphabet) : Legible t.postorder := by
  induction t with
  | atom a =>
      have hAtom : Token.ofChar a.toChar = .atom a := by
        cases a with
        | symbol c => exact Token.ofChar_of_not_reserved (hAlphabet c hTree)
        | emptySet | emptyWord => rfl
      exact List.forall_mem_singleton.mpr (congrArg Token.instruction? hAtom)
  | star operand ih =>
      exact List.forall_mem_append.mpr ⟨ih hTree, List.forall_mem_singleton.mpr rfl⟩
  | binary o left right ihLeft ihRight =>
      have hOperator : (Token.ofChar o.toChar).instruction? = some (.operator o) := by
        cases o <;> rfl
      have hOperands := List.forall_mem_append.mpr ⟨ihLeft hTree.1, ihRight hTree.2⟩
      exact List.forall_mem_append.mpr ⟨hOperands, List.forall_mem_singleton.mpr hOperator⟩

/-! Expressions and their postfix notation. -/

/-- Every spelling of a tree has the postfix notation of the tree. -/
theorem Spells.toPostfix_eq {phrase : Phrase}
    (hSpells : Spells r.alphabet phrase t r.expression.toList) : r.toPostfix = .ok t.toPostfix := by
  rw [toPostfix, hSpells.instructions_eq]
  rfl

/-- Only the spellings of a tree have its postfix notation. -/
theorem spells_of_toPostfix (hTree : t.Over r.alphabet) (hPostfix : r.toPostfix = .ok t.toPostfix) :
    Spells r.alphabet .union t r.expression.toList := by
  rw [toPostfix] at hPostfix
  cases hListing : r.instructions with
  | error fault =>
      rw [hListing] at hPostfix
      cases hPostfix
  | ok listing =>
      rw [hListing] at hPostfix
      have hChars := String.ofList_injective (Except.ok.inj hPostfix)
      obtain rfl : listing = t.postorder := (legible_instructions hListing).eq_of_map_toChar
        (Tree.legible_postorder r.symbol_not_reserved hTree) hChars
      -- What is read as a tree has a spelling, and it is the spelling of this tree.
      have hRead := tree_of_postorder hListing
      obtain ⟨u, hSpells⟩ := exists_tree_iff.mp ⟨t, hRead⟩
      obtain rfl : t = u := Except.ok.inj (hRead.symm.trans hSpells.tree_eq)
      exact hSpells

/-- Every tree over an alphabet has a spelling. An expression spells the tree exactly if it is
accepted and has the postfix notation of the tree. -/
theorem spells_iff_toPostfix (hAlphabet : ∀ c ∈ alphabet, c ∉ reservedSymbols)
    (hTree : t.Over alphabet) :
    (∃ expression : String, Spells alphabet .union t expression.toList) ∧
      ∀ expression : String, Spells alphabet .union t expression.toList ↔
        ∃ r, ofText alphabet expression = .ok r ∧ r.toPostfix = .ok t.toPostfix := by
  refine ⟨⟨String.ofList t.spelling, ?_⟩, fun expression => ⟨?_, ?_⟩⟩
  · rw [String.toList_ofList]
    exact Tree.spells_spelling hTree
  · intro hSpells
    exact ⟨_, ofText_eq_ok hAlphabet hSpells.known, Spells.toPostfix_eq hSpells⟩
  · rintro ⟨r, hText, hPostfix⟩
    obtain ⟨rfl, rfl⟩ := eq_of_ofText hText
    exact spells_of_toPostfix hTree hPostfix

/-- A star over a group of which the last summand is a concatenation of a group and a star, below
a concatenation and a union: the spelling that leaves out what can be left out, and the one with
all parentheses. -/
theorem spells_iff_toPostfix_nested :
    (∀ c ∈ Alphabet.ofString "ab", c ∉ reservedSymbols) ∧
      ∃ t : Tree, t.Over (Alphabet.ofString "ab") ∧ t.toPostfix = "ababa*⋅∪*⋅b⋅∪" ∧
        Spells (Alphabet.ofString "ab") .union t "a∪b(a∪(b)a*)*b".toList ∧
        ∃ r, ofText (Alphabet.ofString "ab") "a∪b(a∪(b)a*)*b" = .ok r ∧
          r.toPostfix = .ok "ababa*⋅∪*⋅b⋅∪" := by
  have hAlphabet : ∀ c ∈ Alphabet.ofString "ab", c ∉ reservedSymbols := by
    simp [reservedSymbols]
  have ha : 'a' ∈ Alphabet.ofString "ab" := by decide
  have hb : 'b' ∈ Alphabet.ofString "ab" := by decide
  have hLetter : ∀ {c : Char}, c ∈ Alphabet.ofString "ab" →
      Spells (Alphabet.ofString "ab") .repetition (.atom (.symbol c)) [c] :=
    fun hc => .once (.symbol hc)
  have hFirst := Spells.summand (.factor (hLetter ha))
  have hLast := Spells.juxtapose (.factor (.once (.group (.summand (.factor (hLetter hb))))))
    (.star (hLetter ha))
  have hStar := Spells.star (.once (.group (.unite hFirst hLast)))
  have hChain := Spells.juxtapose (.juxtapose (.factor (hLetter hb)) hStar) (hLetter hb)
  have hSpells : Spells (.ofString "ab") .union _ "a∪b(a∪(b)a*)*b".toList :=
    .unite hFirst hChain
  obtain ⟨_, hPostfix⟩ := spells_iff_toPostfix hAlphabet hSpells.tree_over
  exact ⟨hAlphabet, _, hSpells.tree_over, rfl, hSpells, (hPostfix _).mp hSpells⟩

end Acceptors.Regex
