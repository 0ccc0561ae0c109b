import Acceptors.Regex.Postfix

/-! The syntax trees of regular expressions. A tree is read from a postfix listing with a
stack of operands, and listing a tree in postorder is the way back. -/
namespace Acceptors.Regex

/-- A regular expression without its spelling. -/
inductive Tree where
  | atom (a : Atom)
  | star (operand : Tree)
  | binary (o : Operator) (left right : Tree)
deriving DecidableEq, Inhabited

/-- The postfix listing of a tree: operands from left to right, then their operator. -/
def Tree.postorder : Tree → List Instruction
  | atom a => [.atom a]
  | star operand => operand.postorder ++ [.star]
  | binary o left right => left.postorder ++ right.postorder ++ [.operator o]

/-- Carry out one instruction on a stack of operands, the last one first. -/
def Instruction.perform : Instruction → List Tree → Except RegexError (List Tree)
  | atom a, stack => .ok (.atom a :: stack)
  | star, operand :: stack => .ok (.star operand :: stack)
  | star, [] => .error (.missingOperand '*')
  | operator o, right :: left :: stack => .ok (.binary o left right :: stack)
  | operator o, _ => .error (.missingOperand o.toChar)

/-- Carry out instructions from first to last. -/
def performAll : List Instruction → List Tree → Except RegexError (List Tree)
  | [], stack => .ok stack
  | instruction :: rest, stack =>
    match instruction.perform stack with
    | .ok next => performAll rest next
    | .error fault => .error fault

/-- The tree of a postfix listing. All operands have to be joined in the end. -/
def Tree.ofPostfix (instructions : List Instruction) : Except RegexError Tree :=
  match performAll instructions [] with
  | .ok [tree] => .ok tree
  | .ok _ => .error .malformed
  | .error fault => .error fault

end Acceptors.Regex
