import Acceptors.Automaton
import Acceptors.CommandLine.Request
import Acceptors.Dfa.Minimal
import Acceptors.Graph.Dot
import Acceptors.Nfa.Determinization
import Acceptors.Regex.Automaton

/-! What a command line prints and how it ends. A failure ends the output where it occurs, and
is reported with the input it concerns and the fault that caused it.

The layout of a report and the codes are conventions of the surroundings, of which this is assumed:
what could not be done stands behind `Error:`, the fault follows an empty line and `Caused by:`, and
each of its lines is indented by four blanks; the code is zero after help as after success, one after
a failure, and two after a misuse. The wording of help and of the report on a misuse is not assumed
to be any in particular: both are the text `usage`. -/
namespace Acceptors.CommandLine

/-- The visible result of a command line. -/
structure Outcome where
  code : Nat
  stdout : String
  stderr : String
deriving DecidableEq

/-- Why a request cannot be carried out. -/
inductive Failure where
  | invalidExpression (expression : String) (fault : RegexError)
  | uncompilable (expression : String) (fault : RegexError)
  | unrunnable (input : String) (fault : RunError)
deriving DecidableEq

/-- What could not be done. -/
def Failure.context : Failure → String
  | invalidExpression expression _ => "invalid regex '" ++ expression ++ "'"
  | uncompilable expression _ => "unable to compile '" ++ expression ++ "'"
  | unrunnable input _ => "unable to run on '" ++ input ++ "'"

/-- The sentence on the fault behind a failure. -/
def Failure.cause : Failure → String
  | invalidExpression _ fault => fault.message
  | uncompilable _ fault => fault.message
  | unrunnable _ fault => fault.message

/-- A text with four blanks before each of its lines. -/
def indented (text : String) : String :=
  "    " ++ String.join (text.toList.map fun c => if c = '\n' then "\n    " else c.toString)

/-- The report of a failure, in the layout that is assumed. -/
def Failure.report (failure : Failure) : String :=
  "Error: " ++ failure.context ++ "\n\nCaused by:\n" ++ indented failure.cause ++ "\n"

/-- The automaton that an engine uses. -/
def Engine.automaton (engine : Engine) (n : Nfa) : FiniteAutomaton :=
  match engine with
  | .nfa => .nfa n
  | .dfa => .dfa n.determinize
  | .minimal => .dfa n.determinize.minimize

/-- The automaton of a request. -/
def Request.compile (request : Request) : Except Failure FiniteAutomaton :=
  match Regex.ofText (Alphabet.ofString request.alphabet) request.expression with
  | .error fault => .error (.invalidExpression request.expression fault)
  | .ok regex =>
    match regex.automaton with
    | .error fault => .error (.uncompilable request.expression fault)
    | .ok n => .ok (request.engine.automaton n)

/-- The line of an input with a verdict. -/
def verdictLine (accepted : Bool) (input : String) : String :=
  (if accepted then "accept" else "reject") ++ "\t" ++ input ++ "\n"

/-- The verdicts on inputs in order, after what has been printed. The first input without a
verdict ends the run. -/
def judgeAll (automaton : FiniteAutomaton) (printed : String) : List String → Outcome
  | [] => { code := 0, stdout := printed, stderr := "" }
  | input :: inputs =>
    match automaton.run input.toList with
    | .ok accepted => judgeAll automaton (printed ++ verdictLine accepted input) inputs
    | .error fault =>
      { code := 1, stdout := printed, stderr := (Failure.unrunnable input fault).report }

/-- Carry out a request. -/
def Request.outcome (request : Request) : Outcome :=
  match request.compile with
  | .error failure => { code := 1, stdout := "", stderr := failure.report }
  | .ok automaton =>
    match request.action with
    | .judge inputs => judgeAll automaton "" inputs
    | .draw => { code := 0, stdout := automaton.graph.dot ++ "\n", stderr := "" }

/-- How to use the command. The wording is one of many, and it stands for the report on a misuse
too. -/
def usage : String :=
  "Usage: match -a ALPHABET -r REGEX [-e nfa|dfa|minimal] [INPUT]...\n" ++
  "       dot -a ALPHABET -r REGEX [-e nfa|dfa|minimal]\n"

/-- The outcome of a command line. Help is printed like any output, and a misuse is reported. -/
def outcome (arguments : List String) : Outcome :=
  match Request.ofArguments arguments with
  | .ok request => request.outcome
  | .error .help => { code := 0, stdout := usage, stderr := "" }
  | .error .misuse => { code := 2, stdout := "", stderr := usage }

end Acceptors.CommandLine
