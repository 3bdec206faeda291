import FlatModel.Dae.Basic
import FlatModel.Symbolic.Evaluation

/-!
# Explicit form and linearization

* `Model.solve` — the values of the unknowns that make all residuals zero.  Residuals are accepted
  if their partial derivatives by the unknowns contain no unknown: these derivatives are the matrix
  of a linear system, and its right side is what the residuals are, with opposite sign, where all
  unknowns are zero (`rightSide`).
* `Model.reduce` — the explicit form: derivatives of the states and outputs, free of unknowns.
* `Model.linearize` — the explicit form differentiated by states and inputs.
* `Linearization.eval` — the four blocks as numbers.
-/

namespace FlatModel.Dae

open Symbolic

variable {K : Type} [Scalar K]

/-- The explicit form of a model in terms of states, inputs, parameters and constants. -/
structure Explicit (K : Type) where
  /-- The derivatives of the states. -/
  derivatives : List (Expr K)
  /-- The outputs. -/
  outputs : List (Expr K)

/-- The blocks of the linearized model, `dx = A x + B u` and `y = C x + D u`. -/
structure Linearization (α : Type) where
  /-- The derivatives of the states by the states. -/
  a : Grid α
  /-- The derivatives of the states by the inputs. -/
  b : Grid α
  /-- The outputs by the states. -/
  c : Grid α
  /-- The outputs by the inputs. -/
  d : Grid α

/-- The values of all entries, block by block. -/
def Linearization.eval (l : Linearization (Expr K)) (env : String → Option K) :
    Except SymbolicError (Linearization K) := do
  let a ← l.a.mapM (Expr.eval env)
  let b ← l.b.mapM (Expr.eval env)
  let c ← l.c.mapM (Expr.eval env)
  let d ← l.d.mapM (Expr.eval env)
  return ⟨a, b, c, d⟩

/-- The number of the first row with an entry that contains an unknown. -/
def nonlinearRow? (unknowns : List (Expr K)) (g : Grid (Expr K)) : Option Nat :=
  g.rows.findIdx? fun row => row.any fun e => e.containsAny unknowns

/-- The right side of the equation of a residual: its opposite where all unknowns are zero. -/
def rightSide (unknowns : List (Expr K)) (residual : Expr K) : Expr K :=
  (Expr.neg (residual.subst (unknowns.map fun u => (u, Expr.zero)))).simplify

/-- A failed elimination names the unknown that no equation determines. -/
def blameUnknown (unknowns : List (Expr K)) : SymbolicError → DaeError
  | .singular k => .structurallySingular ((unknowns[k]?.map Expr.text).getD "")
  | e => .symbolic e

namespace Model

/-- The values of the unknowns that make all residuals zero. -/
def solve (m : Model K) : Except DaeError (List (Expr K)) :=
  let unknowns := m.unknowns
  if m.residuals.length = unknowns.length then do
    let a ← liftSymbolic (jacobian m.residuals unknowns)
    match nonlinearRow? unknowns a with
    | some i => .error (.nonlinear i)
    | none =>
        match solveLinear a (m.residuals.map (rightSide unknowns)) with
        | .ok solution => .ok solution
        | .error e => .error (blameUnknown unknowns e)
  else .error (.notSquare m.residuals.length unknowns.length)

/-- The explicit form of a model. -/
def reduce (m : Model K) : Except DaeError (Explicit K) := do
  let solution ← m.solve
  let pairs := m.unknowns.zip solution
  return {
    derivatives := solution.take m.states.length
    outputs := m.outputs.map fun n => ((Expr.sym n).subst pairs).simplify }

/-- The derivatives by the symbols of a vector of two lists of expressions; both blocks are empty
if the vector is. -/
def blocks (f g : List (Expr K)) (names : List String) :
    Except DaeError (Grid (Expr K) × Grid (Expr K)) :=
  if names.isEmpty then .ok (.empty, .empty)
  else do
    let first ← liftSymbolic (jacobian f (names.map .sym))
    let second ← liftSymbolic (jacobian g (names.map .sym))
    return (first, second)

/-- The derivatives of the explicit form by states and inputs. -/
def linearize (m : Model K) : Except DaeError (Linearization (Expr K)) := do
  let e ← m.reduce
  let (a, c) ← blocks e.derivatives e.outputs m.states
  let (b, d) ← blocks e.derivatives e.outputs m.inputs
  return ⟨a, b, c, d⟩

end Model

end FlatModel.Dae
