/-! The command line read as a request. The alphabet and the expression have to be given once
each, the engine at most once. Options and inputs may come in any order.

The conventions are those of the usual parsers of options, of which no more than this is assumed.
Arguments are read from left to right, and the first one that asks for help or is not used as it
should be decides; only that an option is missing is found at the end. An option is two dashes
with its long name, or one dash with its letter. Its value follows an equals sign, or the letter at
once, or else it is the next argument, unless that is itself an option. A lone dash is no option.
After a double dash everything is an input. Help is asked for by an option of a command, in place
of a command, or as a command that may be followed by the name of one. -/
namespace Acceptors.CommandLine

/-- Which automaton of an expression is used. -/
inductive Engine where
  | nfa
  | dfa
  | minimal
deriving DecidableEq, Inhabited

/-- What is done with the automaton. -/
inductive Action where
  /-- Print the verdict on each input. -/
  | judge (inputs : List String)
  /-- Print the automaton as a graph. -/
  | draw
deriving DecidableEq

/-- A complete request. The engine is known here, also where none was named. -/
structure Request where
  alphabet : String
  expression : String
  engine : Engine
  action : Action
deriving DecidableEq

/-- Why a command line is no request. -/
inductive Refusal where
  /-- It asks how to use the command. -/
  | help
  /-- It does not use the command as it should be used. -/
  | misuse
deriving DecidableEq

/-- The options that take a value. -/
inductive OptionName where
  | alphabet
  | expression
  | engine
deriving DecidableEq

/-- One argument by its form. -/
inductive Argument where
  /-- An option with the value that is attached to it, if any. -/
  | option (name : OptionName) (attached : Option String)
  | help
  | unknownOption
  | endOfOptions
  | input (text : String)
deriving DecidableEq

/-- The option with a long name. -/
def OptionName.ofLong (name : List Char) : Option OptionName :=
  if name = "alphabet".toList then some .alphabet
  else if name = "regex".toList then some .expression
  else if name = "engine".toList then some .engine
  else none

/-- The option with a short name. -/
def OptionName.ofShort (name : Char) : Option OptionName :=
  if name = 'a' then some .alphabet
  else if name = 'r' then some .expression
  else if name = 'e' then some .engine
  else none

/-- The value after a long name, which an equals sign separates from it. -/
def attachedToLong (rest : List Char) : Option String :=
  match rest with
  | [] => none
  | _ :: value => some (String.ofList value)

/-- The value after a short name, which an equals sign may separate from it. -/
def attachedToShort (rest : List Char) : Option String :=
  match rest with
  | [] => none
  | '=' :: value => some (String.ofList value)
  | value => some (String.ofList value)

/-- The form of an argument. A lone dash is an input. -/
def Argument.ofString (text : String) : Argument :=
  match text.toList with
  | ['-', '-'] => .endOfOptions
  | '-' :: '-' :: long =>
    if long = "help".toList then .help
    else
      match OptionName.ofLong (long.takeWhile (· != '=')) with
      | some name => .option name (attachedToLong (long.dropWhile (· != '=')))
      | none => .unknownOption
  | '-' :: short :: rest =>
    if short = 'h' then .help
    else
      match OptionName.ofShort short with
      | some name => .option name (attachedToShort rest)
      | none => .unknownOption
  | _ => .input text

/-- What has been read so far. -/
structure Arguments where
  alphabet : Option String := none
  expression : Option String := none
  engine : Option Engine := none
  inputs : List String := []

/-- The engine with a name. -/
def Engine.ofName (name : String) : Option Engine :=
  if name = "nfa" then some .nfa
  else if name = "dfa" then some .dfa
  else if name = "minimal" then some .minimal
  else none

/-- Record the value of an option that has no value yet. -/
def Arguments.set (read : Arguments) (name : OptionName) (value : String) : Option Arguments :=
  match name with
  | .alphabet =>
    if read.alphabet.isSome then none else some { read with alphabet := some value }
  | .expression =>
    if read.expression.isSome then none else some { read with expression := some value }
  | .engine =>
    if read.engine.isSome then none
    else (Engine.ofName value).map fun engine => { read with engine := some engine }

/-- Read the arguments of a command from left to right. An option without an attached value takes
the next argument, which must not be an option itself. -/
def Arguments.read (takesInputs : Bool) (known : Arguments) :
    List String → Except Refusal Arguments
  | [] => .ok known
  | text :: rest =>
    match Argument.ofString text with
    | .input input =>
      if takesInputs then read takesInputs { known with inputs := known.inputs ++ [input] } rest
      else .error .misuse
    | .endOfOptions =>
      if takesInputs ∨ rest = [] then .ok { known with inputs := known.inputs ++ rest }
      else .error .misuse
    | .help => .error .help
    | .unknownOption => .error .misuse
    | .option name (some value) =>
      match known.set name value with
      | some more => read takesInputs more rest
      | none => .error .misuse
    | .option name none =>
      match rest with
      | next :: rest =>
        match Argument.ofString next with
        | .input value =>
          match known.set name value with
          | some more => read takesInputs more rest
          | none => .error .misuse
        | _ => .error .misuse
      | [] => .error .misuse

/-- The request for an action, unless an option is missing. -/
def Arguments.request (known : Arguments) (action : Action) : Except Refusal Request :=
  match known.alphabet, known.expression with
  | some alphabet, some expression =>
    .ok { alphabet, expression, engine := known.engine.getD .minimal, action }
  | _, _ => .error .misuse

/-- Whether help is asked for in place of a command, or as a command. -/
def asksForHelp (command : String) (rest : List String) : Bool :=
  decide (Argument.ofString command = .help) ||
    decide (command = "help" ∧ rest ∈ [[], ["match"], ["dot"], ["help"]])

/-- The request of a command line, or why it is none, by the conventions that are assumed of a
parser of options. -/
def Request.ofArguments : List String → Except Refusal Request
  | [] => .error .misuse
  | command :: rest =>
    if command = "match" then do
      let known ← Arguments.read true {} rest
      known.request (.judge known.inputs)
    else if command = "dot" then do
      let known ← Arguments.read false {} rest
      known.request .draw
    else if asksForHelp command rest then .error .help
    else .error .misuse

end Acceptors.CommandLine
