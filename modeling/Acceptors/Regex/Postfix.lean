import Acceptors.Regex.Error

/-! Postfix notation, in which an operator follows its operands and no parentheses are needed.
Operators wait on a stack until an operator that binds less tightly, a closing parenthesis or
the end of the expression releases them. -/
namespace Acceptors.Regex

/-- One entry of a postfix listing. -/
inductive Instruction where
  | atom (a : Atom)
  | star
  | operator (o : Operator)
deriving DecidableEq, Inhabited

/-- The character of an entry. -/
def Instruction.toChar : Instruction → Char
  | atom a => a.toChar
  | star => '*'
  | operator o => o.toChar

/-- What waits while an expression is read: an operator for its right operand, or an opening
parenthesis for its partner. -/
inductive Waiting where
  | operator (o : Operator)
  | opening
deriving DecidableEq, Inhabited

/-- The operators on top of the stack that bind at least as tightly as a precedence, and the
stack below them. -/
def release (precedence : Nat) : List Waiting → List Instruction × List Waiting
  | .operator o :: stack =>
    if precedence ≤ o.precedence then
      let (released, rest) := release precedence stack
      (.operator o :: released, rest)
    else ([], .operator o :: stack)
  | stack => ([], stack)

/-- The operators above the last opening parenthesis, and the stack below it. -/
def releaseGroup : List Waiting → Except RegexError (List Instruction × List Waiting)
  | [] => .error .mismatchedParentheses
  | .opening :: stack => .ok ([], stack)
  | .operator o :: stack =>
    match releaseGroup stack with
    | .ok (released, rest) => .ok (.operator o :: released, rest)
    | .error fault => .error fault

/-- The operators that wait at the end of an expression. -/
def releaseAll : List Waiting → Except RegexError (List Instruction)
  | [] => .ok []
  | .opening :: _ => .error .mismatchedParentheses
  | .operator o :: stack =>
    match releaseAll stack with
    | .ok released => .ok (.operator o :: released)
    | .error fault => .error fault

/-- The postfix listing of the tokens that follow, when `output` has been listed already, last
entry first, and `stack` waits. -/
def postfixFrom (output : List Instruction) (stack : List Waiting) :
    List Token → Except RegexError (List Instruction)
  | [] =>
    match releaseAll stack with
    | .ok released => .ok (output.reverse ++ released)
    | .error fault => .error fault
  | .atom a :: tokens => postfixFrom (.atom a :: output) stack tokens
  | .star :: tokens => postfixFrom (.star :: output) stack tokens
  | .opening :: tokens => postfixFrom output (.opening :: stack) tokens
  | .closing :: tokens =>
    match releaseGroup stack with
    | .ok (released, rest) => postfixFrom (released.reverse ++ output) rest tokens
    | .error fault => .error fault
  | .operator o :: tokens =>
    let (released, rest) := release o.precedence stack
    postfixFrom (released.reverse ++ output) (.operator o :: rest) tokens

/-- The postfix listing of an infix expression. -/
def postfixOf (tokens : List Token) : Except RegexError (List Instruction) :=
  postfixFrom [] [] tokens

end Acceptors.Regex
