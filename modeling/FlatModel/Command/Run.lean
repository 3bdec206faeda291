import FlatModel.Command.Options
import FlatModel.Dae.Lowering
import FlatModel.Dae.Reduction
import FlatModel.Emission.Codec
import FlatModel.Emission.Source
import FlatModel.Tree.Listing

/-!
# A run of the command

* `stages` — a run on a unit is a row of stages, each of which has a text to print or fails.
* `Outcome.ofStages` — what is printed is the texts of the stages before the first that fails.
* `run` — a run with given options.

Files are given as a function from names to contents, so a run is a value and needs no outside.
-/

namespace FlatModel.Command

open Symbolic

/-- Why a run stops. -/
inductive Failure where
  /-- A file cannot be read. -/
  | missingFile
  /-- The text of a file is no unit. -/
  | malformedUnit
  /-- A template holds markup, which nothing here expands. -/
  | templateMarkup
  /-- The module cannot be generated. -/
  | emission (error : Emission.EmissionError)
  /-- The model to be linearized is no class of the unit. -/
  | modelNotFound (name : String)
  /-- The model cannot be reduced or linearized. -/
  | dae (error : Dae.DaeError)

/-- The wording of a failure. -/
def Failure.message : Failure → String
  | .missingFile => "No such file or directory (os error 2)"
  | .malformedUnit => "Json"
  | .templateMarkup => "template markup is not supported"
  | .emission e => e.message
  | .modelNotFound name => "model '" ++ name ++ "' not found"
  | .dae e => e.message

/-- What a run prints, and why it stopped early if it did. -/
structure Outcome where
  /-- All that was printed. -/
  output : String
  /-- The failure, if there was one. -/
  failure : Option Failure

namespace Outcome

/-- Print the texts of the stages up to the first that fails. -/
def ofStages : List (Except Failure String) → Outcome
  | [] => ⟨"", none⟩
  | .ok text :: rest =>
      let later := ofStages rest
      ⟨text ++ later.output, later.failure⟩
  | .error e :: _ => ⟨"", some e⟩

/-- The exit code: zero if no stage failed. -/
def exitCode (o : Outcome) : UInt32 := if o.failure.isSome then 1 else 0

end Outcome

/-! ## The parts that are printed -/

/-- The line that frames headings. -/
def bar : String := String.ofList (List.replicate 40 '=')

/-- A heading between two bars. -/
def heading (title : String) : String := "\n\n" ++ bar ++ "\n" ++ title ++ "\n" ++ bar ++ "\n"

/-- The listing of the unit under its heading. -/
def treePart (u : SourceUnit) : String :=
  heading "FLAT TREE" ++ ((u.listing.find? u.id).map fun text => text ++ "\n").getD ""

/-- The document of the unit under its heading. -/
def documentPart (u : SourceUnit) : Except Failure String :=
  match Emission.build u with
  | .ok built => .ok (heading "UNIT" ++ built.1.toJson.pretty ++ "\n")
  | .error e => .error (.emission e)

/-- Whether a text holds the opening of template markup. -/
def hasMarkup : List Char → Bool
  | '\x7b' :: c :: rest => c == '\x7b' || c == '%' || c == '#' || hasMarkup (c :: rest)
  | _ :: rest => hasMarkup rest
  | [] => false

/-- The text of a template without markup is the template less a final line break. -/
def expandTemplate (template : String) : Except Failure String :=
  let cs := template.toList
  if hasMarkup cs then .error .templateMarkup
  else .ok (String.ofList (if cs.getLast? = some '\n' then cs.dropLast else cs))

/-- The generated module, or the template in its place.  The unit is checked in any case before a
template is read. -/
def modulePart (files : String → Option String) (template : Option String) (u : SourceUnit)
    (model : String) : Except Failure String :=
  match Emission.generate u model with
  | .error e => .error (.emission e)
  | .ok text =>
      match template with
      | none => .ok (text ++ "\n")
      | some file =>
          match files file with
          | none => .error .missingFile
          | some contents => (expandTemplate contents).map fun text => text ++ "\n"

/-- A block of the linearization with its name and size. -/
def blockText (name : String) (g : Grid (Expr Float)) : String :=
  name ++ " (" ++ toString g.height ++ "x" ++ toString g.columns ++ ") =\n" ++
    String.join (g.rows.map fun row =>
      "  [" ++ ", ".intercalate (row.map Expr.text) ++ "]\n")

/-- The blocks of the linearization under their heading. -/
def linearizationText (l : Dae.Linearization (Expr Float)) : String :=
  heading "LINEARIZATION" ++ blockText "A" l.a ++ blockText "B" l.b ++ blockText "C" l.c ++
    blockText "D" l.d

/-- The linearization of a class. -/
def linearizationOf (c : ClassDef) : Except Dae.DaeError (Dae.Linearization (Expr Float)) := do
  let m ← Dae.Model.ofClass c
  m.linearize

/-- The linearization of a model of the unit. -/
def linearizationPart (u : SourceUnit) (model : String) : Except Failure String :=
  match u.classes.find? model with
  | none => .error (.modelNotFound model)
  | some c =>
      match linearizationOf c with
      | .ok l => .ok (linearizationText l)
      | .error e => .error (.dae e)

/-! ## Whole runs -/

/-- The stages of a run on a unit: listing and document on demand, the module, the linearization
on demand. -/
def stages (files : String → Option String) (o : Options) (u : SourceUnit) :
    List (Except Failure String) :=
  (if o.verbose then [.ok (treePart u), documentPart u] else []) ++
    [modulePart files o.template u o.model] ++
    (if o.linearize then [linearizationPart u o.model] else [])

/-- A run with given options. -/
def run (files : String → Option String) (o : Options) : Outcome :=
  match files o.tree with
  | none => ⟨"", some .missingFile⟩
  | some text =>
      match SourceUnit.load? text with
      | none => ⟨"", some .malformedUnit⟩
      | some u => Outcome.ofStages (stages files o u)

end FlatModel.Command
