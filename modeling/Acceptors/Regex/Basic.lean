import Acceptors.Alphabet
import Acceptors.Regex.Tree

/-! Regular expressions over an alphabet. An expression is a text of symbols and reserved
characters. Whether its operators have their operands is found out only when it is compiled. -/
namespace Acceptors

/-- A text in which every character is reserved or a symbol, over an alphabet that has no
reserved symbol. -/
structure Regex where
  alphabet : Alphabet
  expression : String
  symbol_not_reserved : ∀ c ∈ alphabet, c ∉ Regex.reservedSymbols
  character_known : ∀ c ∈ expression.toList, c ∈ Regex.reservedSymbols ∨ c ∈ alphabet

namespace Regex

/-- Check an alphabet and an expression over it. The report names the least reserved symbol of
the alphabet, else the first unknown character of the expression. -/
def ofText (alphabet : Alphabet) (expression : String) : Except RegexError Regex :=
  match hReserved : alphabet.toList.find? fun c => decide (c ∈ reservedSymbols) with
  | some c => .error (.reservedSymbolInAlphabet c)
  | none =>
    match hUnknown : expression.toList.find? fun c =>
        decide (c ∉ reservedSymbols) && decide (c ∉ alphabet) with
    | some c => .error (.unknownCharacter c)
    | none =>
      .ok {
        alphabet
        expression
        symbol_not_reserved := fun c hc => by
          simpa using List.find?_eq_none.mp hReserved c hc
        character_known := fun c hc => by
          have hKnown := List.find?_eq_none.mp hUnknown c hc
          by_cases hIn : c ∈ reservedSymbols
          · exact .inl hIn
          · exact .inr (by simpa [hIn] using hKnown) }

/-- The tokens of the expression, with every concatenation spelled out. -/
def tokens (r : Regex) : List Token :=
  Token.withConcatenations (r.expression.toList.map Token.ofChar)

/-- The postfix listing of the expression. -/
def instructions (r : Regex) : Except RegexError (List Instruction) := postfixOf r.tokens

/-- The expression in postfix notation. -/
def toPostfix (r : Regex) : Except RegexError String :=
  r.instructions.map fun listing => String.ofList (listing.map Instruction.toChar)

/-- The syntax tree of the expression. -/
def tree (r : Regex) : Except RegexError Tree := r.instructions.bind Tree.ofPostfix

end Regex

end Acceptors
