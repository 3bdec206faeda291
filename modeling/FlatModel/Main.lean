import FlatModel.Command.Run

/-!
# The program

Reads the files that the arguments name, runs the command and prints what it says.
-/

namespace FlatModel.Command

/-- The contents of a file, if it can be read. -/
def readFile? (name : String) : IO (Option String) := do
  try
    return some (← IO.FS.readFile name)
  catch _ =>
    return none

/-- The contents of the files that the options name. -/
def readFiles (o : Options) : IO (String → Option String) := do
  let tree ← readFile? o.tree
  let template ← match o.template with
    | some name => readFile? name
    | none => pure none
  return fun name => if name = o.tree then tree else template

end FlatModel.Command

/-- Run the command, or print what is asked for instead of a run. -/
def main (args : List String) : IO UInt32 := do
  match FlatModel.Command.Options.ofArgs args with
  | .error halt =>
      IO.print halt.output
      if halt = .misuse then
        IO.eprintln "Usage: flatsym [OPTIONS] <FLAT_TREE_JSON> <MODEL_NAME>"
      return halt.exitCode
  | .ok options =>
      let outcome := FlatModel.Command.run (← FlatModel.Command.readFiles options) options
      IO.print outcome.output
      match outcome.failure with
      | some failure => IO.eprintln ("Error: " ++ failure.message)
      | none => pure ()
      return outcome.exitCode
