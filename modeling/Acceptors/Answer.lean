/-! The answers of runs. A run accepts or rejects its word, or it ends in a fault and gives no
verdict. -/
namespace Acceptors

/-- Why a run gives no verdict. -/
inductive RunError where
  /-- The word contains a symbol that the alphabet lacks. -/
  | symbolNotInAlphabet (symbol : Char)
  /-- The search was cut off after exploring this many configurations. -/
  | stepLimitExceeded (explored : Nat)
deriving DecidableEq

/-- The report of a run without a verdict. -/
def RunError.message : RunError → String
  | symbolNotInAlphabet symbol =>
    "input character '" ++ symbol.toString ++ "' not found in alphabet, either add '" ++
      symbol.toString ++ "' to the alphabet or remove it from the input"
  | stepLimitExceeded explored =>
    "gave up after exploring " ++ toString explored ++ " configurations"

/-- The answer of a run: whether the word is accepted, or why there is no verdict. -/
abbrev Answer := Except RunError Bool

end Acceptors
