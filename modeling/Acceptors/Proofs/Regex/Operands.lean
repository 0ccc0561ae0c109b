import Acceptors.Proofs.Regex.Parentheses
import Mathlib.Algebra.BigOperators.Group.List.Basic
import Mathlib.Algebra.Ring.Int.Defs

/-! Operands are counted against operators. Carrying out a listing makes the stack taller by the
atoms of the listing less its operators of two operands. With the concatenations that are put in,
the tokens of a text have at most one atom more than such operators, and they have one more only
where every token stands where the grammar lets it stand. -/
namespace Acceptors.Regex

variable {operands result : List Tree} {listing : List Instruction}

/-- By how many operands an instruction makes the stack taller. -/
def Instruction.gain : Instruction → Int
  | atom _ => 1
  | star => 0
  | operator _ => -1

def gain (listing : List Instruction) : Int := (listing.map Instruction.gain).sum

@[simp] theorem gain_nil : gain [] = 0 := rfl

@[simp] theorem gain_cons (instruction : Instruction) (listing : List Instruction) :
    gain (instruction :: listing) = instruction.gain + gain listing := by
  simp [gain]

@[simp] theorem gain_append (listing other : List Instruction) :
    gain (listing ++ other) = gain listing + gain other := by
  simp [gain]

/-- The order of a listing does not matter for its gain. -/
theorem gain_perm {other : List Instruction} (hPerm : listing.Perm other) :
    gain listing = gain other :=
  (hPerm.map _).sum_eq

/-! The stack of operands. -/

/-- An instruction leaves an operand on top and makes the stack taller by its gain, or it lacks an
operand. -/
theorem perform_outcomes (instruction : Instruction) (operands : List Tree) :
    (∃ t rest, instruction.perform operands = .ok (t :: rest) ∧
        ((t :: rest).length : Int) = operands.length + instruction.gain) ∨
      ∃ c ∈ ['*', '⋅', '∪'], instruction.perform operands = .error (.missingOperand c) := by
  cases instruction with
  | atom a => exact Or.inl ⟨_, operands, rfl, by simp [Instruction.gain]⟩
  | star =>
      cases operands with
      | nil => exact Or.inr ⟨'*', by simp, rfl⟩
      | cons t operands => exact Or.inl ⟨_, operands, rfl, by simp [Instruction.gain]⟩
  | operator o =>
      have hOperator : o.toChar ∈ ['*', '⋅', '∪'] := by cases o <;> decide
      match operands with
      | [] => exact Or.inr ⟨o.toChar, hOperator, rfl⟩
      | [_] => exact Or.inr ⟨o.toChar, hOperator, rfl⟩
      | _ :: _ :: operands => exact Or.inl ⟨_, operands, rfl, by simp [Instruction.gain]⟩

/-- A listing makes the stack taller by its gain, or some instruction lacks an operand. Only an
empty listing leaves no operand. -/
theorem performAll_outcomes (listing : List Instruction) (operands : List Tree) :
    (∃ result, performAll listing operands = .ok result ∧
        (result.length : Int) = operands.length + gain listing ∧
        (operands ≠ [] ∨ listing ≠ [] → result ≠ [])) ∨
      ∃ c ∈ ['*', '⋅', '∪'], performAll listing operands = .error (.missingOperand c) := by
  induction listing generalizing operands with
  | nil => exact Or.inl ⟨operands, rfl, by simp, by simp⟩
  | cons instruction listing ih =>
      rw [performAll]
      rcases perform_outcomes instruction operands with ⟨t, rest, hFirst, hFirstLength⟩ | hFault
      · rw [hFirst]
        rcases ih (t :: rest) with ⟨result, hRest, hLength, hSome⟩ | hFault
        · rw [hFirstLength, add_assoc, ← gain_cons] at hLength
          exact Or.inl ⟨result, hRest, hLength, fun _ => hSome (Or.inl (List.cons_ne_nil _ _))⟩
        · exact Or.inr hFault
      · obtain ⟨c, hc, hFault⟩ := hFault
        exact Or.inr ⟨c, hc, by rw [hFault]⟩

/-- Where no operand is missed, the gain tells how many are left. -/
theorem length_of_performAll (hPerform : performAll listing operands = .ok result) :
    (result.length : Int) = operands.length + gain listing := by
  rcases performAll_outcomes listing operands with ⟨other, hOther, hLength, _⟩ | ⟨c, _, hFault⟩
  · cases hOther.symm.trans hPerform
    exact hLength
  · cases hFault.symm.trans hPerform

/-! The tokens of a text. -/

def Token.gain (token : Token) : Int := Regex.gain token.instruction?.toList

theorem gain_filterMap_cons (token : Token) (tokens : List Token) :
    gain ((token :: tokens).filterMap Token.instruction?) =
      token.gain + gain (tokens.filterMap Token.instruction?) := by
  cases token <;> simp [Token.gain, Token.instruction?, List.filterMap_cons]

/-- The gain of tokens and of the concatenation before them, where an operand ends before them or
not. -/
def gainBehind (ended : Bool) (tokens : List Token) : Int :=
  gain ((Token.withConcatenations tokens).filterMap Token.instruction?) -
    if ended && Token.operandFirst tokens then 1 else 0

/-- Every token stands where the grammar lets it stand, and an operand ends at the end. Where an
operand ends, any token may follow, as a concatenation is put in where it is needed. Elsewhere an
operand has to start. -/
def Fits : Bool → List Token → Prop
  | ended, [] => ended = true
  | ended, token :: tokens =>
    (ended || token.startsOperand) = true ∧ Fits token.endsOperand tokens

/-- A concatenation that is put in turns two operands into one. -/
theorem gain_seam (token : Token) (tokens : List Token) :
    gain ((Token.seam [token] tokens).filterMap Token.instruction?) =
      if token.endsOperand && Token.operandFirst tokens then -1 else 0 := by
  have hLast : Token.operandLast [token] = token.endsOperand := rfl
  rw [Token.seam, hLast]
  split <;> rfl

theorem gain_withConcatenations_cons (token : Token) (tokens : List Token) :
    gain ((Token.withConcatenations (token :: tokens)).filterMap Token.instruction?) =
      token.gain + gainBehind token.endsOperand tokens := by
  have hTokens : Token.withConcatenations (token :: tokens) =
      token :: (Token.seam [token] tokens ++ Token.withConcatenations tokens) :=
    Token.withConcatenations_append [token] tokens
  rw [hTokens, gain_filterMap_cons, List.filterMap_append, gain_append, gain_seam, gainBehind]
  split <;> omega

/-- A token that fits keeps the count of what it ends and what is to follow. Any other token is
one operand short. -/
theorem gainBehind_cons (ended : Bool) (token : Token) (tokens : List Token) :
    gainBehind ended (token :: tokens) + ended.toInt =
      gainBehind token.endsOperand tokens + token.endsOperand.toInt -
        if ended || token.startsOperand then 0 else 1 := by
  have hFirst : Token.operandFirst (token :: tokens) = token.startsOperand := rfl
  rw [gainBehind, gain_withConcatenations_cons, hFirst]
  cases token <;> cases ended <;>
    simp [Token.gain, Token.instruction?, Instruction.gain, Token.startsOperand,
      Token.endsOperand] <;> omega

/-- Tokens make the stack taller by one operand at most, and by one only if all of them fit. -/
theorem gainBehind_add_le (ended : Bool) (tokens : List Token) :
    gainBehind ended tokens + ended.toInt ≤ 1 := by
  induction tokens generalizing ended with
  | nil => cases ended <;> decide
  | cons token tokens ih =>
      have hRest := ih token.endsOperand
      rw [gainBehind_cons]
      split <;> omega

/-- The gain is as large as it can be exactly if every token stands where it may stand. -/
theorem fits_iff (ended : Bool) (tokens : List Token) :
    Fits ended tokens ↔ gainBehind ended tokens + ended.toInt = 1 := by
  induction tokens generalizing ended with
  | nil => cases ended <;> simp [Fits, gainBehind, Token.withConcatenations, Token.operandFirst]
  | cons token tokens ih =>
      have hRest := gainBehind_add_le token.endsOperand tokens
      rw [Fits, ih, gainBehind_cons]
      by_cases hFits : (ended || token.startsOperand) = true
      · rw [if_pos hFits, and_iff_right hFits, sub_zero]
      · rw [if_neg hFits]
        exact iff_of_false (fun hBoth => hFits hBoth.1) (by omega)

/-- An expression leaves one operand at most, so that none is ever left over. -/
theorem gain_tokensOf_le (text : List Char) :
    gain ((tokensOf text).filterMap Token.instruction?) ≤ 1 := by
  have hGain := gainBehind_add_le false (text.map Token.ofChar)
  simpa [gainBehind, tokensOf] using hGain

/-- One operand is left exactly if every token stands where it may stand. -/
theorem fits_iff_gain_tokensOf (text : List Char) :
    Fits false (text.map Token.ofChar) ↔
      gain ((tokensOf text).filterMap Token.instruction?) = 1 := by
  rw [fits_iff]
  simp [gainBehind, tokensOf]

end Acceptors.Regex
