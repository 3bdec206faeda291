/-!
# The command line

Two positional arguments name the file of the unit and the model; flags ask for more output, and
an option names a template file.  Short flags may be written together.  After `--` every argument
is positional.

Instead of a run the help or the version may be asked for.  The arguments are read from left to right
up to such a flag or to the first one that is misused, and what follows is not looked at.

* `Options.ofArgs` — the options of a run, or why there is none (`Halt`).
-/

namespace FlatModel.Command

/-- What a run is asked to do. -/
structure Options where
  /-- The file of the unit. -/
  tree : String
  /-- The name of the model. -/
  model : String
  /-- The file of a template to be used instead of the built-in one. -/
  template : Option String
  /-- Whether to reduce and linearize the model. -/
  linearize : Bool
  /-- Whether to print the unit and the document. -/
  verbose : Bool
  deriving DecidableEq, Repr

/-- Why the arguments make no run. -/
inductive Halt where
  /-- They are not used as they should be. -/
  | misuse
  /-- The help is asked for. -/
  | help
  /-- The version is asked for. -/
  | version
  deriving DecidableEq, Repr

namespace Halt

/-- The help: what may be given, and what it does. -/
def helpText : String := "Flat model to Sympy translator

Usage: flatsym [OPTIONS] <FLAT_TREE_JSON> <MODEL_NAME>

Arguments:
  <FLAT_TREE_JSON>  The flat tree *.json file to translate
  <MODEL_NAME>      The class to generate

Options:
  -t, --template <TEMPLATE>  Renders a custom minijinja template instead of the built-in one
  -l, --linearize            Reduce and linearize the model, print A, B, C and D
  -v, --verbose              Verbose output
  -h, --help                 Print help
  -V, --version              Print version
"

/-- What is printed instead of a run. -/
def output : Halt → String
  | .misuse => ""
  | .help => helpText
  | .version => "flatsym 0.1.0\n"

/-- The exit code: help and version are no failures. -/
def exitCode : Halt → UInt32
  | .misuse => 2
  | .help | .version => 0

end Halt

/-- What has been read of the arguments so far. -/
structure Parsing where
  /-- The positional arguments. -/
  positionals : List String := []
  /-- The template file. -/
  template : Option String := none
  /-- Whether `--linearize` was given. -/
  linearize : Bool := false
  /-- Whether `--verbose` was given. -/
  verbose : Bool := false

namespace Parsing

/-- A further positional argument; there are two. -/
def addPositional (p : Parsing) (arg : String) : Except Halt Parsing :=
  if p.positionals.length < 2 then .ok { p with positionals := p.positionals ++ [arg] }
  else .error .misuse

/-- The flag `--linearize`, given at most once. -/
def setLinearize (p : Parsing) : Except Halt Parsing :=
  if p.linearize then .error .misuse else .ok { p with linearize := true }

/-- The flag `--verbose`, given at most once. -/
def setVerbose (p : Parsing) : Except Halt Parsing :=
  if p.verbose then .error .misuse else .ok { p with verbose := true }

/-- The option `--template`, given at most once. -/
def setTemplate (p : Parsing) (file : String) : Except Halt Parsing :=
  if p.template.isSome then .error .misuse else .ok { p with template := some file }

/-- What an argument that begins with a dash leaves to be done: nothing, or the template file to
be taken from the next argument. -/
inductive Expecting where
  /-- Nothing. -/
  | nothing
  /-- The file of `--template`. -/
  | templateFile

/-- Short flags written together.  The letter of an option takes the rest as its value, less an
equals sign in front. -/
def shortFlags (p : Parsing) : List Char → Except Halt (Parsing × Expecting)
  | [] => .ok (p, .nothing)
  | 'l' :: rest => p.setLinearize.bind fun p => shortFlags p rest
  | 'v' :: rest => p.setVerbose.bind fun p => shortFlags p rest
  | 'h' :: _ => .error .help
  | 'V' :: _ => .error .version
  | ['t'] => .ok (p, .templateFile)
  | 't' :: '=' :: rest => (p.setTemplate (String.ofList rest)).map fun p => (p, .nothing)
  | 't' :: rest => (p.setTemplate (String.ofList rest)).map fun p => (p, .nothing)
  | _ => .error .misuse

/-- A flag or option by its long name; the value of an option may follow an equals sign. -/
def longFlag (p : Parsing) (name : List Char) : Except Halt (Parsing × Expecting) :=
  if name = "linearize".toList then p.setLinearize.map fun p => (p, .nothing)
  else if name = "verbose".toList then p.setVerbose.map fun p => (p, .nothing)
  else if name = "help".toList then .error .help
  else if name = "version".toList then .error .version
  else if name = "template".toList then .ok (p, .templateFile)
  else if "template=".toList.isPrefixOf name then
    (p.setTemplate (String.ofList (name.drop "template=".toList.length))).map
      fun p => (p, .nothing)
  else .error .misuse

/-- Read the arguments from left to right; the first one may be the value of an option. -/
def run (p : Parsing) : Expecting → List String → Except Halt Parsing
  | .nothing, [] => .ok p
  | .templateFile, [] => .error .misuse
  | .nothing, arg :: rest =>
      match arg.toList with
      | ['-', '-'] => rest.foldlM addPositional p
      | '-' :: '-' :: name => (p.longFlag name).bind fun r => run r.1 r.2 rest
      | '-' :: c :: letters => (p.shortFlags (c :: letters)).bind fun r => run r.1 r.2 rest
      | _ => (p.addPositional arg).bind fun p => run p .nothing rest
  | .templateFile, file :: rest =>
      match file.toList with
      | '-' :: _ :: _ => .error .misuse
      | _ => (p.setTemplate file).bind fun p => run p .nothing rest

/-- The options, if both positional arguments are there. -/
def options (p : Parsing) : Except Halt Options :=
  match p.positionals with
  | [tree, model] => .ok ⟨tree, model, p.template, p.linearize, p.verbose⟩
  | _ => .error .misuse

end Parsing

namespace Options

/-- The options that arguments stand for, or why they stand for none. -/
def ofArgs (args : List String) : Except Halt Options :=
  (Parsing.run {} .nothing args).bind Parsing.options

/-- The options that arguments stand for, if they stand for any. -/
def ofArgs? (args : List String) : Option Options := (ofArgs args).toOption

end Options

end FlatModel.Command
