import FlatModel.OrderedMap
import FlatModel.Symbolic.LinearSystem
import FlatModel.Symbolic.Text

/-!
# Differential-algebraic models

The equations of a class as residuals between symbolic expressions, with the identifiers of its
symbols in six vectors and the default values of those that have one.
-/

namespace FlatModel.Dae

open Symbolic

/-- Why a model cannot be formed or solved. -/
inductive DaeError where
  /-- There are more or fewer equations than unknowns. -/
  | notSquare (equations unknowns : Nat)
  /-- An unknown enters an equation otherwise than linearly. -/
  | nonlinear (equation : Nat)
  /-- No equation is left that could determine an unknown. -/
  | structurallySingular (unknown : String)
  /-- A reference names no symbol of the class. -/
  | unresolvedReference (name : String)
  /-- A literal is no number. -/
  | unsupportedLiteral (text : String)
  /-- A symbolic computation failed. -/
  | symbolic (error : SymbolicError)
  deriving DecidableEq, Repr

/-- The wording of an error. -/
def DaeError.message : DaeError → String
  | .notSquare equations unknowns =>
      toString equations ++ " equations for " ++ toString unknowns ++ " unknowns"
  | .nonlinear equation => "equation " ++ toString equation ++ " is not linear in the unknowns"
  | .structurallySingular unknown => "no equation determines '" ++ unknown ++ "'"
  | .unresolvedReference name => "reference to undeclared symbol '" ++ name ++ "'"
  | .unsupportedLiteral text => "literal '" ++ text ++ "' has no numeric value"
  | .symbolic error => error.message

/-- A symbolic result inside a computation about models. -/
def liftSymbolic {α : Type} : Except SymbolicError α → Except DaeError α
  | .ok a => .ok a
  | .error e => .error (.symbolic e)

/-- A differential-algebraic model.  The vectors hold identifiers; the maps hold the default
expressions under the identifiers of the symbols that have one. -/
structure Model (K : Type) where
  /-- The name of the class. -/
  name : String
  /-- The states. -/
  states : List String
  /-- The algebraic variables, outputs last. -/
  algebraics : List String
  /-- The constants. -/
  constants : List String
  /-- The parameters. -/
  parameters : List String
  /-- The inputs. -/
  inputs : List String
  /-- The outputs. -/
  outputs : List String
  /-- The defaults of the states. -/
  stateDefaults : OrderedMap (Expr K)
  /-- The defaults of the constants. -/
  constantDefaults : OrderedMap (Expr K)
  /-- The defaults of the parameters. -/
  parameterDefaults : OrderedMap (Expr K)
  /-- The defaults of the inputs. -/
  inputDefaults : OrderedMap (Expr K)
  /-- The residuals, zero where the equations hold. -/
  residuals : List (Expr K)
  /-- The names of the states, constants, parameters and inputs without a default. -/
  missingDefaults : List String

namespace Model

variable {K : Type}

/-- The name of the time symbol. -/
def time : String := "t"

/-- The unknowns of the residuals: the derivatives of the states, then the algebraic
variables. -/
def unknowns (m : Model K) : List (Expr K) :=
  m.states.map (fun n => .der (.sym n)) ++ m.algebraics.map .sym

end Model

end FlatModel.Dae
