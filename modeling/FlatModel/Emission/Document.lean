import FlatModel.Emission.FragmentTable
import FlatModel.Identifier.Basic
import FlatModel.SymbolGroups

/-!
# The document of a generated module

All decisions about the generated module are taken before a line of it is written: which vectors a
model has and in which order, which of them come with declarations and default values, and what
is reported where a default is missing.  Their outcome is a document.

* `VectorKind` — the six vectors of a model and what is fixed about each.
* `VectorDoc.build`, `ModelDoc.build` — the document of a vector and of a class, from its symbols
  and the fragments of its nodes.  They fail on the first fragment that is missing, members before
  default values, vectors in order, equations last.
* `UnitDoc` — the models of a unit with the digest they come from.
-/

namespace FlatModel.Emission

/-- Why no module is generated. -/
inductive EmissionError where
  /-- The model asked for is no class of the unit. -/
  | unknownModel (name : String)
  /-- A reference names no symbol of its class. -/
  | unresolvedReference (className name : String)
  /-- A node has no fragment where one is needed. -/
  | missingFragment (id : Nat)
  /-- A node was to get a second fragment. -/
  | secondFragment (id : Nat)
  deriving DecidableEq, Repr

/-- The wording of an error. -/
def EmissionError.message : EmissionError → String
  | .unknownModel name => "model '" ++ name ++ "' is not a class of the flat tree"
  | .unresolvedReference className name =>
      "class '" ++ className ++ "' references undeclared symbol '" ++ name ++ "'"
  | .missingFragment id => "node " ++ toString id ++ " has no translation"
  | .secondFragment id => "node " ++ toString id ++ " was translated twice"

/-! ## The vectors of a model -/

/-- The six vectors of a model. -/
inductive VectorKind where
  /-- The states. -/
  | states
  /-- The algebraic variables. -/
  | algebraics
  /-- The constants. -/
  | constants
  /-- The parameters. -/
  | parameters
  /-- The inputs. -/
  | inputs
  /-- The outputs. -/
  | outputs
  deriving DecidableEq, Repr

namespace VectorKind

/-- The vectors in the order in which they are written. -/
def all : List VectorKind := [.states, .algebraics, .constants, .parameters, .inputs, .outputs]

/-- The attribute of the model that holds the vector. -/
def attr : VectorKind → String
  | .states => "x"
  | .algebraics => "v"
  | .constants => "c"
  | .parameters => "p"
  | .inputs => "u"
  | .outputs => "y"

/-- The heading of the vector. -/
def label : VectorKind → String
  | .states => "states"
  | .algebraics => "variables"
  | .constants => "constants"
  | .parameters => "parameters"
  | .inputs => "inputs"
  | .outputs => "outputs"

/-- Whether the symbols of the vector vary with time. -/
def isDynamic (k : VectorKind) : Bool := k != .constants && k != .parameters

/-- The function that makes the symbols of the vector. -/
def constructor (k : VectorKind) : String :=
  if k.isDynamic then "mech.dynamicsymbols" else "sympy.symbols"

/-- Whether the vector comes with default values. -/
def hasDefaults (k : VectorKind) : Bool := k != .algebraics && k != .outputs

/-- The symbols of the vector. -/
def select (k : VectorKind) (g : SymbolGroups) : List Symbol :=
  match k with
  | .states => g.states
  | .algebraics => g.algebraics
  | .constants => g.constants
  | .parameters => g.parameters
  | .inputs => g.inputs
  | .outputs => g.outputs

end VectorKind

/-- The line that declares the symbols of a vector. -/
structure Declaration where
  /-- The identifiers on the left side. -/
  targets : String
  /-- The function called. -/
  constructor : String
  /-- The names in the form shown to readers. -/
  display : String
  deriving DecidableEq, Repr

/-- The default value of a symbol. -/
structure DefaultEntry where
  /-- The identifier. -/
  key : String
  /-- The fragment of the value. -/
  value : String
  deriving DecidableEq, Repr

/-- A vector of a model. -/
structure VectorDoc where
  /-- Which vector it is. -/
  kind : VectorKind
  /-- Its declaration, absent if it is empty. -/
  declaration : Option Declaration
  /-- The identifiers of its symbols. -/
  members : List String
  /-- The default values. -/
  defaults : List DefaultEntry
  /-- The names of the symbols that should have a default value and have none. -/
  missing : List String
  deriving DecidableEq, Repr

/-- The fragment of a node that must have one. -/
def FragmentTable.fragment (t : FragmentTable) (id : Nat) : Except EmissionError String :=
  match t.get? id with
  | some text => .ok text
  | none => .error (.missingFragment id)

namespace VectorDoc

/-- The declaration of a vector with the given members. -/
def declare (k : VectorKind) (members : List String) : Option Declaration :=
  if members.isEmpty then none
  else
    let targets := ", ".intercalate members
    some ⟨targets, k.constructor, Identifier.display targets⟩

/-- The default values of symbols with their identifiers, and the names of those without. -/
def collectDefaults (t : FragmentTable) :
    List (Symbol × String) → Except EmissionError (List DefaultEntry × List String)
  | [] => .ok ([], [])
  | (s, key) :: rest =>
      match s.default? with
      | some e => do
          let value ← t.fragment e.id
          let more ← collectDefaults t rest
          return (⟨key, value⟩ :: more.1, more.2)
      | none => do
          let more ← collectDefaults t rest
          return (more.1, s.name :: more.2)

/-- The vector of the given symbols, all fragments taken from a table. -/
def build (k : VectorKind) (symbols : List Symbol) (t : FragmentTable) :
    Except EmissionError VectorDoc := do
  let members ← symbols.mapM fun s => t.fragment s.id
  let found ←
    if k.hasDefaults then collectDefaults t (symbols.zip members) else .ok ([], [])
  return {
    kind := k
    declaration := declare k members
    members := members
    defaults := found.1
    missing := found.2 }

end VectorDoc

/-! ## Models and units -/

/-- The name of the time symbol. -/
def timeSymbol : String := "t"

/-- A generated model class. -/
structure ModelDoc where
  /-- The name of the class. -/
  name : String
  /-- The vectors in the order in which they are written. -/
  vectors : List VectorDoc
  /-- The residuals of the equations. -/
  equations : List String
  /-- The names of all symbols that should have a default value and have none. -/
  missingDefaults : List String
  deriving DecidableEq, Repr

namespace ModelDoc

/-- The model of a class, all fragments taken from a table. -/
def build (c : ClassDef) (t : FragmentTable) : Except EmissionError ModelDoc := do
  let vectors ← VectorKind.all.mapM fun k => VectorDoc.build k (k.select c.groups) t
  let equations ← c.equations.mapM fun e => t.fragment e.id
  return {
    name := c.name
    vectors := vectors
    equations := equations
    missingDefaults := vectors.flatMap VectorDoc.missing }

end ModelDoc

/-- The first line of every generated module. -/
def banner : String := "do not edit, generated by flatsym"

/-- What every generated module imports. -/
def imports : List String :=
  ["from __future__ import print_function, division",
    "import sympy",
    "import sympy.physics.mechanics as mech",
    "from flatsym.runtime import OdeModel",
    "from sympy import sin, cos, tan"]

/-- A generated module. -/
structure UnitDoc where
  /-- The digest of the unit it is generated from. -/
  sourceDigest : String
  /-- The models, by name of their classes. -/
  models : List ModelDoc
  deriving DecidableEq, Repr

end FlatModel.Emission
