import Acceptors.Proofs.Regex.Operands

/-! The recognition of the grammar. A text whose tokens fit and whose parentheses are balanced is
read from left to right into a spelling of some tree. What has been read is kept as the fronts of
the groups that are open, each of which only lacks what is to follow, and the operand that ends
last. -/
namespace Acceptors.Regex

variable {alphabet : Alphabet} {t u : Tree} {text other : List Char} {depth : Nat} {ended : Bool}

/-- A repetition before a chain of factors is the first factor of a longer chain. -/
theorem Spells.exists_prepend (hFirst : Spells alphabet .repetition t text) {glue : List Char}
    (hGlue : glue = [] ∨ glue = ['⋅']) (hChain : Spells alphabet .concat u other) :
    ∃ v, Spells alphabet .concat v (text ++ glue ++ other) := by
  generalize hPhrase : Phrase.concat = phrase at hChain
  induction hChain with
  | factor operand =>
      rcases hGlue with rfl | rfl
      · rw [List.append_nil]
        exact ⟨_, .juxtapose (.factor hFirst) operand⟩
      · rw [List.append_assoc]
        exact ⟨_, .concatenate (.factor hFirst) operand⟩
  | juxtapose _ right ih _ =>
      obtain ⟨v, hFront⟩ := ih hPhrase
      rw [← List.append_assoc]
      exact ⟨_, .juxtapose hFront right⟩
  | concatenate _ right ih _ =>
      obtain ⟨v, hFront⟩ := ih hPhrase
      rw [← List.append_assoc]
      exact ⟨_, .concatenate hFront right⟩
  | _ => cases hPhrase

/-- A text that a chain of factors completes to a union. -/
def Leads (alphabet : Alphabet) (text : List Char) : Prop :=
  ∀ u other, Spells alphabet .concat u other → ∃ t, Spells alphabet .union t (text ++ other)

theorem leads_nil : Leads alphabet [] := fun _ _ hChain => ⟨_, .summand hChain⟩

namespace Leads

variable {operand : List Char}

/-- One operand completes the text to a union. -/
theorem exists_union (hLeads : Leads alphabet text)
    (hOperand : Spells alphabet .repetition t operand) :
    ∃ u, Spells alphabet .union u (text ++ operand) :=
  hLeads _ _ (.factor hOperand)

/-- Behind an operand the chain goes on, with the sign of a concatenation or without it. -/
theorem factor (hLeads : Leads alphabet text) (hOperand : Spells alphabet .repetition t operand)
    {glue : List Char} (hGlue : glue = [] ∨ glue = ['⋅']) :
    Leads alphabet (text ++ operand ++ glue) := by
  intro u other hChain
  obtain ⟨v, hLonger⟩ := hOperand.exists_prepend hGlue hChain
  rw [List.append_assoc, List.append_assoc, ← List.append_assoc operand]
  exact hLeads _ _ hLonger

theorem summand (hLeads : Leads alphabet text) (hOperand : Spells alphabet .repetition t operand) :
    Leads alphabet (text ++ operand ++ ['∪']) := by
  intro u other hChain
  obtain ⟨v, hFront⟩ := hLeads.exists_union hOperand
  rw [List.append_assoc]
  exact ⟨_, .unite hFront hChain⟩

end Leads

/-- What has been read of a text, by whether an operand ends there and how many parentheses are
open. -/
inductive HasRead (alphabet : Alphabet) : Bool → Nat → List Char → Prop where
  | outside {text : List Char} (front : Leads alphabet text) : HasRead alphabet false 0 text
  | inside {depth : Nat} {text other : List Char} (outer : HasRead alphabet false depth text)
      (front : Leads alphabet other) : HasRead alphabet false (depth + 1) (text ++ '(' :: other)
  | operand {depth : Nat} {t : Tree} {text other : List Char}
      (before : HasRead alphabet false depth text) (last : Spells alphabet .repetition t other) :
      HasRead alphabet true depth (text ++ other)

namespace HasRead

/-- Whatever keeps a text leading can be read behind the innermost front. -/
theorem extend {more : List Char} (hRead : HasRead alphabet false depth text)
    (hMore : ∀ front, Leads alphabet front → Leads alphabet (front ++ more)) :
    HasRead alphabet false depth (text ++ more) := by
  cases hRead with
  | outside front => exact .outside (hMore _ front)
  | inside outer front =>
      rw [List.append_assoc, List.cons_append]
      exact .inside outer (hMore _ front)

/-- Behind an operand another one may be juxtaposed. -/
theorem awaits (hRead : HasRead alphabet ended depth text) : HasRead alphabet false depth text := by
  cases hRead with
  | outside front => exact .outside front
  | inside outer front => exact .inside outer front
  | operand before last =>
      apply before.extend
      intro front hFront
      simpa using hFront.factor last (Or.inl rfl)

theorem atom {c : Char} (hRead : HasRead alphabet ended depth text)
    (hAtom : Spells alphabet .atom t [c]) : HasRead alphabet true depth (text ++ [c]) :=
  .operand hRead.awaits (.once hAtom)

/-- An opening parenthesis starts a group, also where a concatenation is left out before it. -/
theorem opening (hRead : HasRead alphabet ended depth text) :
    HasRead alphabet false (depth + 1) (text ++ ['(']) :=
  .inside hRead.awaits leads_nil

theorem star (hRead : HasRead alphabet true depth text) :
    HasRead alphabet true depth (text ++ ['*']) := by
  cases hRead with
  | operand before last =>
      rw [List.append_assoc]
      exact .operand before (.star last)

theorem operator (o : Operator) (hRead : HasRead alphabet true depth text) :
    HasRead alphabet false depth (text ++ [o.toChar]) := by
  cases hRead with
  | operand before last =>
      rw [List.append_assoc]
      apply before.extend
      intro front hFront
      rw [← List.append_assoc]
      cases o with
      | union => exact hFront.summand last
      | concatenation => exact hFront.factor last (Or.inr rfl)

/-- A closing parenthesis makes an operand of the innermost group. -/
theorem closing (hRead : HasRead alphabet true (depth + 1) text) :
    HasRead alphabet true depth (text ++ [')']) := by
  cases hRead with
  | operand before last =>
      cases before with
      | inside outer front =>
          obtain ⟨t, hGroup⟩ := front.exists_union last
          have hOperand := HasRead.operand outer (.once (.group hGroup))
          simpa using hOperand

/-- A text at whose end no group is open and an operand ends has been read as a union. -/
theorem exists_union (hRead : HasRead alphabet true 0 text) :
    ∃ t, Spells alphabet .union t text := by
  cases hRead with
  | operand before last =>
      cases before with
      | outside front => exact front.exists_union last

end HasRead

section Reading

variable (hAlphabet : ∀ c ∈ alphabet, c ∉ reservedSymbols)
include hAlphabet

/-- The kinds of characters that an expression may have. -/
theorem known_cases {c : Char} (hKnown : c ∈ reservedSymbols ∨ c ∈ alphabet) :
    c = '(' ∨ c = ')' ∨ c = '*' ∨ (∃ o : Operator, c = o.toChar) ∨
      ∃ a, Token.ofChar c = .atom a ∧ Spells alphabet .atom (.atom a) [c] := by
  rcases hKnown with hReserved | hc
  · simp only [reservedSymbols, List.mem_cons, List.not_mem_nil, or_false] at hReserved
    rcases hReserved with rfl | rfl | rfl | rfl | rfl | rfl | rfl
    · exact Or.inl rfl
    · exact Or.inr (Or.inl rfl)
    · exact Or.inr (Or.inr (Or.inl rfl))
    · exact Or.inr (Or.inr (Or.inr (Or.inl ⟨.concatenation, rfl⟩)))
    · exact Or.inr (Or.inr (Or.inr (Or.inl ⟨.union, rfl⟩)))
    · exact Or.inr (Or.inr (Or.inr (Or.inr ⟨_, rfl, .emptySet⟩)))
    · exact Or.inr (Or.inr (Or.inr (Or.inr ⟨_, rfl, .emptyWord⟩)))
  · have hToken := Token.ofChar_of_not_reserved (hAlphabet c hc)
    exact Or.inr (Or.inr (Or.inr (Or.inr ⟨_, hToken, .symbol hc⟩)))

/-- If what follows fits and closes all groups, the whole text is a union. -/
theorem HasRead.exists_spells {rest : List Char} (hRead : HasRead alphabet ended depth text)
    (hKnown : ∀ c ∈ rest, c ∈ reservedSymbols ∨ c ∈ alphabet)
    (hFits : Fits ended (rest.map Token.ofChar)) (hCloses : Closes depth (rest.map Token.ofChar)) :
    ∃ t, Spells alphabet .union t (text ++ rest) := by
  induction rest generalizing ended depth text with
  | nil =>
      obtain rfl : ended = true := hFits
      obtain rfl : depth = 0 := hCloses
      rw [List.append_nil]
      exact hRead.exists_union
  | cons c rest ih =>
      rw [List.forall_mem_cons] at hKnown
      rw [List.append_cons]
      rw [List.map_cons] at hFits hCloses
      obtain ⟨hFirst, hRest⟩ := hFits
      -- A token that starts no operand fits only where one ends.
      have hEnded : (Token.ofChar c).startsOperand = false → ended = true := by
        intro hStart
        rwa [hStart, Bool.or_false] at hFirst
      rcases known_cases hAlphabet hKnown.1 with rfl | rfl | rfl | ⟨o, rfl⟩ | ⟨a, hToken, hAtom⟩
      · exact ih hRead.opening hKnown.2 hRest hCloses
      · obtain rfl := hEnded rfl
        cases depth with
        | zero => exact absurd hCloses id
        | succ depth => exact ih hRead.closing hKnown.2 hRest hCloses
      · obtain rfl := hEnded rfl
        exact ih hRead.star hKnown.2 hRest ((closes_ofChar_cons (by decide) (by decide)).mp hCloses)
      · have hToken : Token.ofChar o.toChar = .operator o := by cases o <;> rfl
        rw [hToken] at hRest hCloses hEnded
        obtain rfl := hEnded rfl
        exact ih (hRead.operator o) hKnown.2 hRest (by simpa [Closes] using hCloses)
      · rw [hToken] at hRest hCloses
        exact ih (hRead.atom hAtom) hKnown.2 hRest (by simpa [Closes] using hCloses)

/-- A text of known characters belongs to the grammar if its parentheses are balanced and its
tokens make the stack taller by one operand. -/
theorem exists_spells_of_gain (hKnown : ∀ c ∈ text, c ∈ reservedSymbols ∨ c ∈ alphabet)
    (hBalanced : ¬ Unbalanced text)
    (hGain : gain ((tokensOf text).filterMap Token.instruction?) = 1) :
    ∃ t, Spells alphabet .union t text := by
  have hCloses : Closes 0 (text.map Token.ofChar) :=
    (closes_withConcatenations _ 0).mp (closes_tokensOf_iff.mpr hBalanced)
  have hFits := (fits_iff_gain_tokensOf text).mpr hGain
  exact HasRead.exists_spells hAlphabet (.outside leads_nil) hKnown hFits hCloses

end Reading

end Acceptors.Regex
