import Acceptors.CommandLine.Outcome

/-! The command line program. -/

/-- Print the outcome of the arguments and end with its code. -/
def main (arguments : List String) : IO UInt32 := do
  let outcome := Acceptors.CommandLine.outcome arguments
  IO.print outcome.stdout
  IO.eprint outcome.stderr
  return outcome.code.toUInt32
