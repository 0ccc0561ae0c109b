import Acceptors.Alphabet
import Acceptors.Regex.Tree

/-! The grammar of regular expressions, on characters and on tokens. On characters a
concatenation may be left out. Among tokens every concatenation is spelled out, so that one
rule covers both operators, by how tightly they bind. -/
namespace Acceptors.Regex

inductive Phrase where
  | union
  | concat
  | repetition
  | atom
deriving DecidableEq

/-- A text spells a tree as a phrase of some kind. Chains of an operator lean to the left, and
parentheses leave no trace in the tree. -/
inductive Spells (alphabet : Alphabet) : Phrase → Tree → List Char → Prop where
  | symbol {c : Char} (hc : c ∈ alphabet) : Spells alphabet .atom (.atom (.symbol c)) [c]
  | emptySet : Spells alphabet .atom (.atom .emptySet) ['∅']
  | emptyWord : Spells alphabet .atom (.atom .emptyWord) ['ε']
  | group {t : Tree} {text : List Char} (inner : Spells alphabet .union t text) :
      Spells alphabet .atom t ('(' :: text ++ [')'])
  | once {t : Tree} {text : List Char} (operand : Spells alphabet .atom t text) :
      Spells alphabet .repetition t text
  | star {t : Tree} {text : List Char} (operand : Spells alphabet .repetition t text) :
      Spells alphabet .repetition (.star t) (text ++ ['*'])
  | factor {t : Tree} {text : List Char} (operand : Spells alphabet .repetition t text) :
      Spells alphabet .concat t text
  | juxtapose {t u : Tree} {text other : List Char} (left : Spells alphabet .concat t text)
      (right : Spells alphabet .repetition u other) :
      Spells alphabet .concat (.binary .concatenation t u) (text ++ other)
  | concatenate {t u : Tree} {text other : List Char} (left : Spells alphabet .concat t text)
      (right : Spells alphabet .repetition u other) :
      Spells alphabet .concat (.binary .concatenation t u) (text ++ '⋅' :: other)
  | summand {t : Tree} {text : List Char} (operand : Spells alphabet .concat t text) :
      Spells alphabet .union t text
  | unite {t u : Tree} {text other : List Char} (left : Spells alphabet .union t text)
      (right : Spells alphabet .concat u other) :
      Spells alphabet .union (.binary .union t u) (text ++ '∪' :: other)

/-- Tokens that list a tree in infix notation, in which no operator outside of parentheses
binds less tightly than a level. No operator reaches level 3. -/
inductive Infix : Nat → Tree → List Token → Prop where
  | atom (a : Atom) : Infix 3 (.atom a) [.atom a]
  | group {t : Tree} {tokens : List Token} (inner : Infix 1 t tokens) :
      Infix 3 t (.opening :: tokens ++ [.closing])
  | star {t : Tree} {tokens : List Token} (operand : Infix 3 t tokens) :
      Infix 3 (.star t) (tokens ++ [.star])
  | binary {o : Operator} {t u : Tree} {tokens others : List Token}
      (left : Infix o.precedence t tokens) (right : Infix (o.precedence + 1) u others) :
      Infix o.precedence (.binary o t u) (tokens ++ .operator o :: others)
  | loosen {level : Nat} {t : Tree} {tokens : List Token} (tight : Infix (level + 1) t tokens) :
      Infix level t tokens

/-- The level of the operators that a phrase may have outside of parentheses. -/
def Phrase.level : Phrase → Nat
  | union => Operator.union.precedence
  | concat => Operator.concatenation.precedence
  | repetition | atom => Operator.concatenation.precedence + 1

namespace Token

def operandFirst (tokens : List Token) : Bool := tokens.head?.any startsOperand

def operandLast (tokens : List Token) : Bool := tokens.getLast?.any endsOperand

def seam (left right : List Token) : List Token :=
  if operandLast left && operandFirst right then [operator .concatenation] else []

/-- Between two lists of tokens, one concatenation is put in or none. -/
theorem withConcatenations_append (left right : List Token) :
    withConcatenations (left ++ right) =
      withConcatenations left ++ seam left right ++ withConcatenations right := by
  induction left using withConcatenations.induct with
  | case1 => rfl
  | case2 token =>
      cases right with
      | nil => simp [withConcatenations, seam, operandFirst]
      | cons next rest =>
          by_cases hSeam : (token.endsOperand && next.startsOperand) = true <;>
            simp [withConcatenations, seam, operandFirst, operandLast, hSeam]
  | case3 x y rest hSeam ih =>
      have hLast : seam (x :: y :: rest) right = seam (y :: rest) right := by
        simp [seam, operandLast]
      simp [withConcatenations, hSeam, hLast, ← ih]
  | case4 x y rest hSeam ih =>
      have hLast : seam (x :: y :: rest) right = seam (y :: rest) right := by
        simp [seam, operandLast]
      simp [withConcatenations, hSeam, hLast, ← ih]

/-- A character that is not reserved stands for itself. -/
theorem ofChar_of_not_reserved {c : Char} (hc : c ∉ reservedSymbols) :
    ofChar c = .atom (.symbol c) := by
  simp only [reservedSymbols, List.mem_cons, List.not_mem_nil, or_false, not_or] at hc
  simp [ofChar, hc]

theorem operandFirst_append {left : List Token} (hLeft : operandFirst left = true)
    (right : List Token) : operandFirst (left ++ right) = true := by
  cases left with
  | nil => cases hLeft
  | cons token rest => exact hLeft

theorem operandLast_append {right : List Token} (hRight : operandLast right = true)
    (left : List Token) : operandLast (left ++ right) = true := by
  rw [operandLast, List.getLast?_append]
  rw [operandLast] at hRight
  cases hLast : right.getLast? with
  | none =>
      rw [hLast] at hRight
      cases hRight
  | some token =>
      rw [hLast] at hRight
      exact hRight

end Token

/-- The tokens of a text, with every concatenation spelled out. -/
def tokensOf (text : List Char) : List Token :=
  Token.withConcatenations (text.map Token.ofChar)

theorem tokensOf_append (text other : List Char) :
    tokensOf (text ++ other) = tokensOf text ++
      Token.seam (text.map Token.ofChar) (other.map Token.ofChar) ++ tokensOf other := by
  rw [tokensOf, List.map_append, Token.withConcatenations_append]
  rfl

/-- Nothing is put in before what cannot start an operand. -/
theorem tokensOf_append_of_first (text other : List Char)
    (hFirst : Token.operandFirst (other.map Token.ofChar) = false) :
    tokensOf (text ++ other) = tokensOf text ++ tokensOf other := by
  rw [tokensOf_append, Token.seam, hFirst, Bool.and_false, if_neg Bool.false_ne_true,
    List.append_nil]

/-- Nothing is put in behind what cannot end an operand. -/
theorem tokensOf_append_of_last (text other : List Char)
    (hLast : Token.operandLast (text.map Token.ofChar) = false) :
    tokensOf (text ++ other) = tokensOf text ++ tokensOf other := by
  rw [tokensOf_append, Token.seam, hLast, Bool.false_and, if_neg Bool.false_ne_true,
    List.append_nil]

/-- Nothing is put in at the inner sides of parentheses. -/
theorem tokensOf_group (text : List Char) :
    tokensOf ('(' :: text ++ [')']) = .opening :: tokensOf text ++ [.closing] := by
  rw [tokensOf_append_of_first _ [')'] rfl, ← List.singleton_append,
    tokensOf_append_of_last ['('] text rfl]
  rfl

theorem tokensOf_star (text : List Char) : tokensOf (text ++ ['*']) = tokensOf text ++ [.star] :=
  tokensOf_append_of_first text ['*'] rfl

/-- Nothing is put in at either side of an operator. -/
theorem tokensOf_operator (o : Operator) (text other : List Char) :
    tokensOf (text ++ o.toChar :: other) = tokensOf text ++ .operator o :: tokensOf other := by
  have hBefore : Token.operandFirst ((o.toChar :: other).map Token.ofChar) = false := by
    cases o <;> rfl
  have hAfter : Token.operandLast ([o.toChar].map Token.ofChar) = false := by
    cases o <;> rfl
  have hOperator : tokensOf [o.toChar] = [.operator o] := by
    cases o <;> rfl
  rw [tokensOf_append_of_first _ _ hBefore, ← List.singleton_append,
    tokensOf_append_of_last _ _ hAfter, hOperator]
  rfl

namespace Spells

variable {alphabet : Alphabet} {phrase : Phrase} {t : Tree} {text : List Char}
variable (hAlphabet : ∀ c ∈ alphabet, c ∉ reservedSymbols)
include hAlphabet

/-- A spelling starts and ends as operands do, so a concatenation can be left out beside it. -/
theorem operand_at_ends (hSpells : Spells alphabet phrase t text) :
    Token.operandFirst (text.map Token.ofChar) = true ∧
      Token.operandLast (text.map Token.ofChar) = true := by
  induction hSpells with
  | symbol hc =>
      rw [List.map_singleton, Token.ofChar_of_not_reserved (hAlphabet _ hc)]
      exact ⟨rfl, rfl⟩
  | emptySet | emptyWord => exact ⟨rfl, rfl⟩
  | group _ _ =>
      rw [List.map_append]
      exact ⟨rfl, Token.operandLast_append rfl _⟩
  | once _ ih | factor _ ih | summand _ ih => exact ih
  | star _ ih =>
      rw [List.map_append]
      exact ⟨Token.operandFirst_append ih.1 _, Token.operandLast_append rfl _⟩
  | juxtapose _ _ ihLeft ihRight =>
      rw [List.map_append]
      exact ⟨Token.operandFirst_append ihLeft.1 _, Token.operandLast_append ihRight.2 _⟩
  | concatenate _ _ ihLeft ihRight | unite _ _ ihLeft ihRight =>
      rw [List.map_append, List.map_cons, ← List.singleton_append]
      have hRight := Token.operandLast_append ihRight.2
      exact ⟨Token.operandFirst_append ihLeft.1 _, Token.operandLast_append (hRight _) _⟩

/-- The reader turns the spelling of a tree into infix notation for the same tree. -/
theorem toInfix (hSpells : Spells alphabet phrase t text) :
    Infix phrase.level t (tokensOf text) := by
  induction hSpells with
  | symbol hc =>
      rw [tokensOf, List.map_singleton, Token.ofChar_of_not_reserved (hAlphabet _ hc)]
      exact .atom _
  | emptySet => exact .atom .emptySet
  | emptyWord => exact .atom .emptyWord
  | group _ ih =>
      rw [tokensOf_group]
      exact .group ih
  | once _ ih => exact ih
  | star _ ih =>
      rw [tokensOf_star]
      exact .star ih
  | factor _ ih | summand _ ih => exact .loosen ih
  | @juxtapose t u text other left right ihLeft ihRight =>
      have hTokens : tokensOf (text ++ other) =
          tokensOf text ++ .operator .concatenation :: tokensOf other := by
        rw [tokensOf_append, Token.seam, (operand_at_ends hAlphabet left).2,
          (operand_at_ends hAlphabet right).1, Bool.and_self, if_pos rfl, List.append_assoc,
          List.singleton_append]
      rw [hTokens]
      exact .binary (o := .concatenation) ihLeft ihRight
  | @concatenate t u text other _ _ ihLeft ihRight =>
      have hTokens := tokensOf_operator .concatenation text other
      rw [Operator.toChar] at hTokens
      rw [hTokens]
      exact .binary (o := .concatenation) ihLeft ihRight
  | @unite t u text other _ _ ihLeft ihRight =>
      have hTokens := tokensOf_operator .union text other
      rw [Operator.toChar] at hTokens
      rw [hTokens]
      exact .binary (o := .union) ihLeft ihRight

end Spells

end Acceptors.Regex
