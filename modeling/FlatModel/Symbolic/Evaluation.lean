import FlatModel.Symbolic.Error
import FlatModel.Symbolic.Text

/-!
# Values of expressions

The value of an expression once its names have values.  A symbol is looked up by its name and a
time derivative by its text.
-/

namespace FlatModel.Symbolic.Expr

variable {K : Type} [Scalar K]

/-- The value of a name, or the complaint that it has none. -/
def lookup (env : String → Option K) (name : String) : Except SymbolicError K :=
  match env name with
  | some value => .ok value
  | none => .error (.unboundSymbol name)

/-- The value of a function at given arguments. -/
def applyCall (name : String) (values : List K) : Except SymbolicError K :=
  match Scalar.call? name values with
  | some value => .ok value
  | none => .error (.unknownFunction name)

mutual

/-- The value of an expression. -/
def eval (env : String → Option K) : Expr K → Except SymbolicError K
  | .num x => .ok x
  | .sym n => lookup env n
  | .der a => lookup env (Expr.der a).text
  | .neg a => do
      let x ← a.eval env
      return Scalar.neg x
  | .add a b => do
      let x ← a.eval env
      let y ← b.eval env
      return Scalar.add x y
  | .sub a b => do
      let x ← a.eval env
      let y ← b.eval env
      return Scalar.sub x y
  | .mul a b => do
      let x ← a.eval env
      let y ← b.eval env
      return Scalar.mul x y
  | .div a b => do
      let x ← a.eval env
      let y ← b.eval env
      return Scalar.div x y
  | .pow a b => do
      let x ← a.eval env
      let y ← b.eval env
      return Scalar.pow x y
  | .call f args => do
      let values ← evalAll env args
      applyCall f values

/-- The values of the expressions of a list. -/
def evalAll (env : String → Option K) : List (Expr K) → Except SymbolicError (List K)
  | [] => .ok []
  | a :: rest => do
      let x ← a.eval env
      let xs ← evalAll env rest
      return x :: xs

end

end FlatModel.Symbolic.Expr
