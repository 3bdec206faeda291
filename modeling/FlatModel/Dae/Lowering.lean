import FlatModel.Dae.Basic
import FlatModel.Identifier.Basic
import FlatModel.SymbolGroups

/-!
# From a class to its model

* `lower` — the symbolic form of an expression of a class: references become the identifiers of the
  symbols, `der` is carried out as total derivative by time, the five arithmetic operators become
  symbolic operators and everything else becomes a call.
* `lowerEquation` — the residual of an equation.
* `lowerDefaults` — the default values of a group of symbols, and who has none.
* `Model.ofClass` — the model of a class.
-/

namespace FlatModel.Dae

open Symbolic

variable {K : Type} [Scalar K]

/-- What an expression of a class may refer to. -/
structure Scope where
  /-- The names of the symbols. -/
  names : List String
  /-- The identifiers of the symbols that vary with time. -/
  dynamic : List String

namespace Scope

/-- The scope of a class: states, algebraic variables, inputs and outputs vary
with time. -/
def ofClass (c : ClassDef) : Scope where
  names := c.symbols.keys
  dynamic :=
    let g := c.groups
    (g.states ++ g.algebraics ++ g.inputs ++ g.outputs).map fun s => Identifier.sanitize s.name

/-- Whether an identifier varies with time. -/
def isDynamic (s : Scope) (ident : String) : Bool := s.dynamic.contains ident

/-- The symbol that a reference stands for. -/
def resolve (s : Scope) (name : String) : Except DaeError (Expr K) :=
  if s.names.contains name then .ok (.sym (Identifier.sanitize name))
  else .error (.unresolvedReference name)

end Scope

/-! ## Expressions -/

/-- A literal as a number: truth is one, falsehood zero, text has no number. -/
def lowerLiteral : Literal → Except DaeError (Expr K)
  | .boolean v => .ok (if v then .one else .zero)
  | .integer v => .ok (.num (Scalar.ofInt v.toInt))
  | .real v => .ok (.num (Scalar.ofFloat v))
  | .string v => .error (.unsupportedLiteral v)

/-- The symbolic form of two operands under an arithmetic operator. -/
def arithmetic? (operator : String) (left right : Expr K) : Option (Expr K) :=
  if operator = "+" then some (.add left right)
  else if operator = "-" then some (.sub left right)
  else if operator = "*" then some (.mul left right)
  else if operator = "/" then some (.div left right)
  else if operator = "^" then some (.pow left right)
  else none

/-- An operation whose operands are lowered. -/
def lowerOperation (s : Scope) (operator : String) (args : List (Expr K)) :
    Except DaeError (Expr K) :=
  match args with
  | [a] =>
      if operator = "der" then liftSymbolic (a.timeDerivative s.isDynamic)
      else if operator = "+" then .ok a
      else if operator = "-" then .ok (.neg a)
      else .ok (.call operator [a])
  | [a, b] => .ok ((arithmetic? operator a b).getD (.call operator [a, b]))
  | args => .ok (.call operator args)

mutual

/-- The symbolic form of an expression. -/
def lower (s : Scope) : Expression → Except DaeError (Expr K)
  | .literal _ value => lowerLiteral value
  | .reference _ name => s.resolve name
  | .operation _ operator operands => do
      let args ← lowerAll s operands
      lowerOperation s operator args

/-- The symbolic forms of the expressions of a list. -/
def lowerAll (s : Scope) : List Expression → Except DaeError (List (Expr K))
  | [] => .ok []
  | e :: rest => do
      let a ← lower s e
      let more ← lowerAll s rest
      return a :: more

end

/-! ## Classes -/

/-- The residual of an equation: left side minus right side. -/
def lowerEquation (s : Scope) (e : Equation) : Except DaeError (Expr K) := do
  let left ← lower s e.left
  let right ← lower s e.right
  return .sub left right

/-- The defaults of symbols under their identifiers, and the names of those without. -/
def lowerDefaults (s : Scope) :
    List Symbol → Except DaeError (List (String × Expr K) × List String)
  | [] => .ok ([], [])
  | sym :: rest =>
      match sym.default? with
      | some e => do
          let value ← lower s e
          let more ← lowerDefaults s rest
          return ((Identifier.sanitize sym.name, value) :: more.1, more.2)
      | none => do
          let more ← lowerDefaults s rest
          return (more.1, sym.name :: more.2)

/-- The identifiers of symbols. -/
def identifiers (symbols : List Symbol) : List String :=
  symbols.map fun s => Identifier.sanitize s.name

/-- The model of a class.  The defaults are lowered before the equations, those of the states
first, then those of constants, parameters and inputs. -/
def Model.ofClass (c : ClassDef) : Except DaeError (Model K) := do
  let scope := Scope.ofClass c
  let g := c.groups
  let x0 ← lowerDefaults scope g.states
  let c0 ← lowerDefaults scope g.constants
  let p0 ← lowerDefaults scope g.parameters
  let u0 ← lowerDefaults scope g.inputs
  let residuals ← c.equations.mapM (lowerEquation scope)
  return {
    name := c.name
    states := identifiers g.states
    algebraics := identifiers g.algebraics
    constants := identifiers g.constants
    parameters := identifiers g.parameters
    inputs := identifiers g.inputs
    outputs := identifiers g.outputs
    stateDefaults := .ofList x0.1
    constantDefaults := .ofList c0.1
    parameterDefaults := .ofList p0.1
    inputDefaults := .ofList u0.1
    residuals := residuals
    missingDefaults := x0.2 ++ c0.2 ++ p0.2 ++ u0.2 }

end FlatModel.Dae
