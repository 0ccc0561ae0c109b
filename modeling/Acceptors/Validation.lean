import Acceptors.Text.Quoted

/-! Descriptions of machines are judged by the list of their faults, in the order in which faults
are reported: a description without faults is accepted, and any other is refused with the first
fault of its list. -/
namespace Acceptors

/-- What is wrong with the description of a machine. -/
inductive ValidationError where
  | missingArgument (name : String)
  | startStateNotInStates (state : String)
  | acceptStateNotInStates (state : String)
  | missingTransition (state : String) (symbol : Char)
  | unknownState (state : String)
  | unknownSymbol (symbol : Char)
  | initialStackItemNotInStackAlphabet (item : Char)
  | unknownStackSymbol (item : Char)
  | nondeterministicTransition (state : String) (symbol : Option Char) (pop : Char)
deriving DecidableEq

namespace ValidationError

/-- The input of a move, as a report names it. -/
private def inputText : Option Char → String
  | none => "None"
  | some symbol => "Some(" ++ Text.quotedChar symbol ++ ")"

/-- The report of a fault. Names and symbols stand in it as they are, but the input of a
move is quoted. -/
def message : ValidationError → String
  | missingArgument name => "required argument `" ++ name ++ "` was not provided"
  | startStateNotInStates state =>
    "start state `" ++ state ++ "` not contained in the set of states, " ++
      "either add it to the states or choose a different start state"
  | acceptStateNotInStates state =>
    "accept state `" ++ state ++ "` not contained in the set of states, " ++
      "either add it to the states or choose different accept states"
  | missingTransition state symbol =>
    "transition table does not contain an entry for state `" ++ state ++ "` and symbol '" ++
      symbol.toString ++ "'"
  | unknownState state =>
    "transition table refers to state `" ++ state ++
      "`, which is not contained in the set of states"
  | unknownSymbol symbol =>
    "transition table uses symbol '" ++ symbol.toString ++
      "', which is not contained in the alphabet"
  | initialStackItemNotInStackAlphabet item =>
    "initial stack item '" ++ item.toString ++ "' not contained in the stack alphabet"
  | unknownStackSymbol item =>
    "transition table uses stack symbol '" ++ item.toString ++
      "', which is not contained in the stack alphabet"
  | nondeterministicTransition state symbol pop =>
    "deterministic automaton has more than one move for state `" ++ state ++ "`, input " ++
      inputText symbol ++ " and stack top '" ++ pop.toString ++ "'"

end ValidationError

namespace Validation

/-- A part of a description that has to be given. -/
def require {α : Type} (name : String) : Option α → Except ValidationError α
  | some part => .ok part
  | none => .error (.missingArgument name)

/-- The fault of a requirement that is not met. -/
def demand (requirement : Prop) [Decidable requirement] (fault : ValidationError) :
    List ValidationError :=
  if requirement then [] else [fault]

/-- Accept a description that has no faults, or report the first. -/
def judge {α : Type} (faults : List ValidationError) (description : α) :
    Except ValidationError α :=
  match faults with
  | [] => .ok description
  | fault :: _ => .error fault

theorem judge_eq_ok_iff {α : Type} {faults : List ValidationError} {description result : α} :
    judge faults description = .ok result ↔ faults = [] ∧ description = result := by
  cases faults <;> simp [judge]

theorem judge_eq_error_iff {α : Type} {faults : List ValidationError} {description : α}
    {fault : ValidationError} :
    judge faults description = .error fault ↔ faults.head? = some fault := by
  cases faults <;> simp [judge]

end Validation

end Acceptors
