import Acceptors.CommandLine.Request

/-! Requests written as command lines. With every value attached to its option and the inputs
behind a double dash, any texts can be handed over, and they are read back as they are. -/
namespace Acceptors.CommandLine

def OptionName.long : OptionName → String
  | alphabet => "alphabet"
  | expression => "regex"
  | engine => "engine"

/-- An option and its value in one argument. -/
def OptionName.attach (name : OptionName) (value : String) : String :=
  "--" ++ name.long ++ "=" ++ value

def Engine.name : Engine → String
  | nfa => "nfa"
  | dfa => "dfa"
  | minimal => "minimal"

def Action.command : Action → String
  | judge _ => "match"
  | draw => "dot"

def Action.inputs : Action → List String
  | judge inputs => inputs
  | draw => []

/-- A command line for a request. -/
def Request.toArguments (request : Request) : List String :=
  request.action.command :: OptionName.attach .alphabet request.alphabet ::
    OptionName.attach .expression request.expression ::
    OptionName.attach .engine request.engine.name :: "--" :: request.action.inputs

theorem Engine.ofName_name (engine : Engine) : Engine.ofName engine.name = some engine := by
  cases engine <;> rfl

/-- Whatever the value is, also one that looks like an option, it belongs to the option that it
is attached to. -/
theorem Argument.ofString_attach (name : OptionName) (value : String) :
    Argument.ofString (name.attach value) = .option name (some value) := by
  cases name <;>
    simp [Argument.ofString, OptionName.attach, OptionName.long, OptionName.ofLong, attachedToLong]

/-- With its value attached, an option takes nothing of what follows. -/
theorem Arguments.read_attach {takesInputs : Bool} {known more : Arguments} {name : OptionName}
    {value : String} (hSet : known.set name value = some more) (rest : List String) :
    known.read takesInputs (name.attach value :: rest) = more.read takesInputs rest := by
  rw [read, Argument.ofString_attach]
  simp only [hSet]

/-- Behind a double dash even a request for help is an input. -/
theorem Arguments.read_endOfOptions {takesInputs : Bool} {inputs : List String}
    (hInputs : takesInputs ∨ inputs = []) (known : Arguments) :
    known.read takesInputs ("--" :: inputs) =
      .ok { known with inputs := known.inputs ++ inputs } := by
  have hArgument : Argument.ofString "--" = .endOfOptions := rfl
  rw [read, hArgument]
  simp only [if_pos hInputs]

/-- A request is read back from its command line. -/
theorem Request.ofArguments_toArguments (request : Request) :
    Request.ofArguments request.toArguments = .ok request := by
  obtain ⟨alphabet, expression, engine, action⟩ := request
  have hEngine : ({ alphabet, expression } : Arguments).set .engine engine.name =
      some { alphabet, expression, engine } := by
    simp [Arguments.set, Engine.ofName_name]
  have hRead : ∀ takesInputs : Bool, (takesInputs ∨ action.inputs = []) →
      Arguments.read takesInputs {} (OptionName.attach .alphabet alphabet ::
        OptionName.attach .expression expression :: OptionName.attach .engine engine.name ::
        "--" :: action.inputs) = .ok ⟨alphabet, expression, engine, action.inputs⟩ := by
    intro takesInputs hInputs
    rw [Arguments.read_attach rfl, Arguments.read_attach rfl, Arguments.read_attach hEngine,
      Arguments.read_endOfOptions hInputs]
    rfl
  cases action with
  | judge inputs =>
      have hJudge := hRead true (.inl rfl)
      simp only [toArguments, ofArguments, Action.command, if_true, hJudge]
      rfl
  | draw =>
      have hDraw := hRead false (.inr rfl)
      have hCommand : "dot" ≠ "match" := by decide
      simp only [toArguments, ofArguments, Action.command, if_neg hCommand, if_true, hDraw]
      rfl

end Acceptors.CommandLine
