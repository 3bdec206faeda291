import FlatModel.Dae.Basic
import FlatModel.Symbolic.Evaluation

/-!
# Numeric defaults

The default expressions of a model evaluated to numbers, those of constants first, then
parameters, states and inputs; each may use the ones before it.
-/

namespace FlatModel.Dae

open Symbolic

variable {K : Type} [Scalar K]

/-- Evaluate defaults one after the other, adding each value to those known. -/
def evalDefaults (env : OrderedMap K) : List (String × Expr K) → Except DaeError (OrderedMap K)
  | [] => .ok env
  | (name, e) :: rest => do
      let value ← liftSymbolic (e.eval env.find?)
      evalDefaults (env.insert name value) rest

/-- The default expressions in the order of evaluation. -/
def Model.allDefaults (m : Model K) : List (String × Expr K) :=
  m.constantDefaults.entries ++ m.parameterDefaults.entries ++ m.stateDefaults.entries ++
    m.inputDefaults.entries

/-- The values of all defaults by identifier. -/
def Model.defaultEnv (m : Model K) : Except DaeError (OrderedMap K) :=
  evalDefaults .empty m.allDefaults

end FlatModel.Dae
