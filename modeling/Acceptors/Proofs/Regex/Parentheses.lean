import Acceptors.Proofs.Regex.Postfix
import Mathlib.Data.List.Infix

/-! Balanced parentheses. Tokens have a postfix listing if their parentheses are balanced, and
the listing then holds all other tokens. Concatenations that are put in change no balance, so
that it can be read off the text. -/
namespace Acceptors.Regex

variable {depth : Nat} {tokens : List Token} {output : List Instruction} {stack : List Waiting}
  {text : List Char}

/-- Some beginning of a text closes more parentheses than it opens, or some stay open. -/
def Unbalanced (text : List Char) : Prop :=
  (∃ beginning, beginning <+: text ∧ beginning.count '(' < beginning.count ')') ∨
    text.count ')' < text.count '('

/-- Where `depth` parentheses are open, the tokens close these and all that they open. -/
def Closes : Nat → List Token → Prop
  | depth, [] => depth = 0
  | depth, .opening :: tokens => Closes (depth + 1) tokens
  | 0, .closing :: _ => False
  | depth + 1, .closing :: tokens => Closes depth tokens
  | depth, .atom _ :: tokens => Closes depth tokens
  | depth, .star :: tokens => Closes depth tokens
  | depth, .operator _ :: tokens => Closes depth tokens

theorem closes_cons_congr {token : Token} {others : List Token}
    (hSame : ∀ depth, Closes depth tokens ↔ Closes depth others) (depth : Nat) :
    Closes depth (token :: tokens) ↔ Closes depth (token :: others) := by
  cases token with
  | closing =>
      cases depth with
      | zero => simp [Closes]
      | succ depth => exact hSame depth
  | opening => exact hSame (depth + 1)
  | atom a => simpa [Closes] using hSame depth
  | star => simpa [Closes] using hSame depth
  | operator o => simpa [Closes] using hSame depth

/-- What is put in opens and closes nothing. -/
theorem closes_withConcatenations (tokens : List Token) (depth : Nat) :
    Closes depth (Token.withConcatenations tokens) ↔ Closes depth tokens := by
  induction tokens using Token.withConcatenations.induct generalizing depth with
  | case1 => rfl
  | case2 token => rfl
  | case3 left right rest hSeam ih =>
      rw [Token.withConcatenations, if_pos hSeam]
      apply closes_cons_congr
      intro depth
      simpa [Closes] using ih depth
  | case4 left right rest hSeam ih =>
      rw [Token.withConcatenations, if_neg hSeam]
      exact closes_cons_congr ih depth

theorem closes_ofChar_cons {c : Char} (hOpening : c ≠ '(') (hClosing : c ≠ ')') :
    Closes depth (Token.ofChar c :: tokens) ↔ Closes depth tokens := by
  rw [Token.ofChar, if_neg hOpening, if_neg hClosing]
  split_ifs <;> simp [Closes]

/-- A property of all beginnings of a text, by what its first character adds to it. -/
theorem forall_prefix_cons {P : List Char → Prop} {c : Char} :
    (∀ beginning, beginning <+: c :: text → P beginning) ↔
      P [] ∧ ∀ beginning, beginning <+: text → P (c :: beginning) := by
  constructor
  · intro hAll
    refine ⟨hAll [] List.nil_prefix, ?_⟩
    intro beginning hPrefix
    exact hAll _ ((List.prefix_cons_inj c).mpr hPrefix)
  · intro hBoth beginning hPrefix
    rcases List.prefix_cons_iff.mp hPrefix with rfl | ⟨rest, rfl, hRest⟩
    · exact hBoth.1
    · exact hBoth.2 rest hRest

/-- What is open gets closed if no beginning closes more than that and nothing stays open. -/
theorem closes_map_ofChar (text : List Char) (depth : Nat) :
    Closes depth (text.map Token.ofChar) ↔
      (∀ beginning, beginning <+: text → beginning.count ')' ≤ depth + beginning.count '(') ∧
        depth + text.count '(' ≤ text.count ')' := by
  induction text generalizing depth with
  | nil => simp [Closes]
  | cons c text ih =>
      rw [forall_prefix_cons, List.map_cons]
      by_cases hOpening : c = '('
      · subst hOpening
        change Closes (depth + 1) (text.map Token.ofChar) ↔ _
        rw [ih]
        simp [Nat.add_comm, Nat.add_left_comm]
      · by_cases hClosing : c = ')'
        · subst hClosing
          cases depth with
          | zero =>
              apply iff_of_false id
              intro hBalanced
              exact absurd (hBalanced.1.2 [] List.nil_prefix) (by decide)
          | succ depth =>
              change Closes depth (text.map Token.ofChar) ↔ _
              rw [ih]
              simp [Nat.add_right_comm]
        · rw [closes_ofChar_cons hOpening hClosing, ih]
          simp [hOpening, hClosing]

/-- The tokens of a text close all parentheses if the text is balanced. -/
theorem closes_tokensOf_iff : Closes 0 (tokensOf text) ↔ ¬ Unbalanced text := by
  rw [tokensOf, closes_withConcatenations, closes_map_ofChar, Unbalanced]
  simp

/-! The stack of what waits. -/

/-- The instruction that a token becomes, if it is no parenthesis. -/
def Token.instruction? : Token → Option Instruction
  | atom a => some (.atom a)
  | star => some .star
  | operator o => some (.operator o)
  | opening | closing => none

def Waiting.instruction? : Waiting → Option Instruction
  | operator o => some (.operator o)
  | opening => none

/-- The operators on top of the stack end at an opening parenthesis or at the bottom. -/
theorem exists_pending (stack : List Waiting) :
    ∃ pending : List Operator, stack = pending.map .operator ∨
      ∃ rest, stack = pending.map .operator ++ .opening :: rest := by
  induction stack with
  | nil => exact ⟨[], Or.inl rfl⟩
  | cons top stack ih =>
      cases top with
      | opening => exact ⟨[], Or.inr ⟨stack, rfl⟩⟩
      | operator o =>
          obtain ⟨pending, rfl | ⟨rest, rfl⟩⟩ := ih
          · exact ⟨o :: pending, Or.inl rfl⟩
          · exact ⟨o :: pending, Or.inr ⟨rest, rfl⟩⟩

@[simp] theorem count_opening_pending (pending : List Operator) :
    (pending.map Waiting.operator).count .opening = 0 := by
  simp [List.count_eq_zero]

theorem filterMap_pending (pending : List Operator) :
    (pending.map Waiting.operator).filterMap Waiting.instruction? =
      pending.map Instruction.operator := by
  rw [List.filterMap_map, ← List.filterMap_eq_map]
  rfl

/-- What is released are operators from the top of the stack. -/
theorem exists_release_eq (level : Nat) (stack : List Waiting) :
    ∃ (pending : List Operator) (rest : List Waiting),
      stack = pending.map .operator ++ rest ∧
        release level stack = (pending.map .operator, rest) := by
  induction stack with
  | nil => exact ⟨[], [], rfl, rfl⟩
  | cons top stack ih =>
      cases top with
      | opening => exact ⟨[], _, rfl, rfl⟩
      | operator o =>
          obtain ⟨pending, rest, hStack, hRelease⟩ := ih
          rw [release, hRelease]
          by_cases hTight : level ≤ o.precedence
          · exact ⟨o :: pending, rest, by rw [hStack]; rfl, if_pos hTight⟩
          · exact ⟨[], _, rfl, if_neg hTight⟩

/-- A parenthesis that closes nothing is reported. -/
theorem releaseGroup_unopened (pending : List Operator) :
    releaseGroup (pending.map .operator) = .error .mismatchedParentheses := by
  induction pending with
  | nil => rfl
  | cons o pending ih => rw [List.map_cons, releaseGroup, ih]

/-- A parenthesis that is open at the end is reported. -/
theorem releaseAll_unclosed (pending : List Operator) (rest : List Waiting) :
    releaseAll (pending.map .operator ++ .opening :: rest) = .error .mismatchedParentheses := by
  induction pending with
  | nil => rfl
  | cons o pending ih => rw [List.map_cons, List.cons_append, releaseAll, ih]

/-- Without balance, there is no listing. -/
theorem postfixFrom_eq_error (hOpen : ¬ Closes (stack.count .opening) tokens) :
    postfixFrom output stack tokens = .error .mismatchedParentheses := by
  induction tokens generalizing output stack with
  | nil =>
      obtain ⟨pending, rfl | ⟨rest, rfl⟩⟩ := exists_pending stack
      · simp [Closes] at hOpen
      · rw [postfixFrom, releaseAll_unclosed]
  | cons token tokens ih =>
      cases token with
      | atom a => exact ih (by simpa [Closes] using hOpen)
      | star => exact ih (by simpa [Closes] using hOpen)
      | opening => exact ih (by simpa [Closes] using hOpen)
      | closing =>
          obtain ⟨pending, rfl | ⟨rest, rfl⟩⟩ := exists_pending stack
          · rw [postfixFrom, releaseGroup_unopened]
          · rw [postfixFrom, releaseGroup_pending]
            exact ih (by simpa [Closes] using hOpen)
      | operator o =>
          obtain ⟨pending, rest, rfl, hRelease⟩ := exists_release_eq o.precedence stack
          rw [postfixFrom, hRelease]
          exact ih (by simpa [Closes] using hOpen)

/-- A listed token moves ahead of what waits. -/
private theorem perm_listed (token output waiting rest : List Instruction) :
    (token ++ output ++ (waiting ++ rest)).Perm (output ++ (waiting ++ (token ++ rest))) := by
  rw [List.perm_iff_count]
  intro i
  simp only [List.count_append]
  omega

/-- A token that takes the place of released operators. -/
private theorem perm_released (token released output waiting rest : List Instruction) :
    (released.reverse ++ output ++ (token ++ waiting ++ rest)).Perm
      (output ++ (released ++ waiting ++ (token ++ rest))) := by
  rw [List.perm_iff_count]
  intro i
  simp only [List.count_append, List.count_reverse]
  omega

/-- With balance there is a listing, of what has been listed, what waits and what follows. -/
theorem exists_postfixFrom_eq (hCloses : Closes (stack.count .opening) tokens) :
    ∃ listing, postfixFrom output stack tokens = .ok listing ∧
      listing.Perm (output ++
        (stack.filterMap Waiting.instruction? ++ tokens.filterMap Token.instruction?)) := by
  induction tokens generalizing output stack with
  | nil =>
      obtain ⟨pending, rfl | ⟨rest, rfl⟩⟩ := exists_pending stack
      · refine ⟨output.reverse ++ pending.map .operator, ?_, ?_⟩
        · rw [postfixFrom, releaseAll_pending]
        · rw [filterMap_pending, List.filterMap_nil, List.append_nil]
          exact output.reverse_perm.append_right _
      · simp [Closes] at hCloses
  | cons token tokens ih =>
      cases token with
      | atom a =>
          obtain ⟨listing, hListing, hPerm⟩ := @ih (.atom a :: output) stack
            (by simpa [Closes] using hCloses)
          exact ⟨listing, hListing, hPerm.trans (perm_listed [.atom a] _ _ _)⟩
      | star =>
          obtain ⟨listing, hListing, hPerm⟩ := @ih (.star :: output) stack
            (by simpa [Closes] using hCloses)
          exact ⟨listing, hListing, hPerm.trans (perm_listed [.star] _ _ _)⟩
      | opening =>
          obtain ⟨listing, hListing, hPerm⟩ := @ih output (.opening :: stack)
            (by simpa [Closes] using hCloses)
          exact ⟨listing, hListing, hPerm⟩
      | closing =>
          obtain ⟨pending, rfl | ⟨rest, rfl⟩⟩ := exists_pending stack
          · simp [Closes] at hCloses
          · rw [postfixFrom, releaseGroup_pending, List.filterMap_append, filterMap_pending]
            obtain ⟨listing, hListing, hPerm⟩ :=
              @ih ((pending.map .operator).reverse ++ output) rest
                (by simpa [Closes] using hCloses)
            exact ⟨listing, hListing, hPerm.trans (perm_released [] _ _ _ _)⟩
      | operator o =>
          obtain ⟨pending, rest, rfl, hRelease⟩ := exists_release_eq o.precedence stack
          rw [postfixFrom, hRelease, List.filterMap_append, filterMap_pending]
          obtain ⟨listing, hListing, hPerm⟩ :=
            @ih ((pending.map .operator).reverse ++ output) (.operator o :: rest)
              (by simpa [Closes] using hCloses)
          exact ⟨listing, hListing, hPerm.trans (perm_released [.operator o] _ _ _ _)⟩

theorem postfixOf_eq_error (hOpen : ¬ Closes 0 tokens) :
    postfixOf tokens = .error .mismatchedParentheses :=
  postfixFrom_eq_error hOpen

/-- The listing of balanced tokens is a permutation of those that are no parentheses. -/
theorem exists_postfixOf_eq (hCloses : Closes 0 tokens) :
    ∃ listing, postfixOf tokens = .ok listing ∧
      listing.Perm (tokens.filterMap Token.instruction?) :=
  exists_postfixFrom_eq hCloses

end Acceptors.Regex
