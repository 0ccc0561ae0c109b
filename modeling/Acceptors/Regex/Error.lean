import Acceptors.Regex.Token

/-! The faults of regular expressions and the sentences that report them. -/
namespace Acceptors

/-- What is wrong with a regular expression. -/
inductive RegexError where
  | reservedSymbolInAlphabet (symbol : Char)
  | unknownCharacter (c : Char)
  | mismatchedParentheses
  /-- A star, or one of the operators between two operands, lacks an operand. -/
  | missingOperand (operator : Char)
  | malformed
deriving DecidableEq

/-- The report of a fault. -/
def RegexError.message : RegexError → String
  | reservedSymbolInAlphabet symbol =>
    "alphabet contains the reserved symbol '" ++ symbol.toString ++ "'"
  | unknownCharacter c =>
    "character '" ++ c.toString ++ "' is neither in the alphabet nor a reserved symbol"
  | mismatchedParentheses => "mismatched parentheses"
  | missingOperand operator => "operator '" ++ operator.toString ++ "' is missing an operand"
  | malformed => "malformed regex"

end Acceptors
