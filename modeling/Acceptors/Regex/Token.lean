/-! The characters of expressions, read as tokens. A concatenation may be left out between
two operands; the reader puts the operator in, so that later stages see it everywhere. -/
namespace Acceptors.Regex

/-- The operators that join two operands. -/
inductive Operator where
  | union
  | concatenation
deriving DecidableEq, Inhabited

/-- The operands that have no parts. -/
inductive Atom where
  | symbol (c : Char)
  | emptySet
  | emptyWord
deriving DecidableEq, Inhabited

/-- One character of an expression. -/
inductive Token where
  | atom (a : Atom)
  | star
  | operator (o : Operator)
  | opening
  | closing
deriving DecidableEq, Inhabited

/-- The characters with a meaning of their own, which no alphabet may contain. -/
def reservedSymbols : List Char := ['(', ')', '*', '⋅', '∪', '∅', 'ε']

/-- The character of an operator. -/
def Operator.toChar : Operator → Char
  | .union => '∪'
  | .concatenation => '⋅'

/-- An operator of higher precedence binds its operands first. -/
def Operator.precedence : Operator → Nat
  | .union => 1
  | .concatenation => 2

/-- The character of an atom. -/
def Atom.toChar : Atom → Char
  | .symbol c => c
  | .emptySet => '∅'
  | .emptyWord => 'ε'

namespace Token

/-- The token of a character. All that is not reserved is a symbol. -/
def ofChar (c : Char) : Token :=
  if c = '(' then opening
  else if c = ')' then closing
  else if c = '*' then star
  else if c = '⋅' then operator .concatenation
  else if c = '∪' then operator .union
  else if c = '∅' then atom .emptySet
  else if c = 'ε' then atom .emptyWord
  else atom (.symbol c)

/-- The character of a token. -/
def toChar : Token → Char
  | atom a => a.toChar
  | star => '*'
  | operator o => o.toChar
  | opening => '('
  | closing => ')'

/-- Whether an operand may end with the token. -/
def endsOperand : Token → Bool
  | atom _ | star | closing => true
  | operator _ | opening => false

/-- Whether an operand may start with the token. -/
def startsOperand : Token → Bool
  | atom _ | opening => true
  | star | operator _ | closing => false

/-- Put a concatenation wherever an operand may end and the next may start. -/
def withConcatenations : List Token → List Token
  | [] => []
  | [token] => [token]
  | left :: right :: rest =>
    if left.endsOperand && right.startsOperand then
      left :: operator .concatenation :: withConcatenations (right :: rest)
    else left :: withConcatenations (right :: rest)

end Token

end Acceptors.Regex
