import FlatModel.Symbolic.Error
import FlatModel.Symbolic.Simplify

/-!
# Derivatives

* `Expr.derivative leaf e` — the rules of differentiation through an expression, once `leaf` tells
  the derivatives of the atoms, which are the symbols and the time derivatives.
* `Expr.diff e var` — the partial derivative: one for the chosen atom, zero for all others.
* `Expr.timeDerivative dynamic e` — the total derivative: a symbol that varies with time and every
  time derivative has its own time derivative, all else is constant.

A call is differentiated by the chain rule if its function is known and takes one argument.  A
call none of whose arguments varies is constant, whatever its function.
-/

namespace FlatModel.Symbolic.Expr

variable {K : Type} [Scalar K]

/-- A function of one argument. -/
def call1 (name : String) (a : Expr K) : Expr K := .call name [a]

/-- The square of an expression. -/
def square (a : Expr K) : Expr K := .pow a two

/-- The derivatives of the known functions, by name. -/
def outerDerivatives : List (String × (Expr K → Expr K)) :=
  [("sin", fun a => call1 "cos" a),
    ("cos", fun a => .neg (call1 "sin" a)),
    ("tan", fun a => .add one (square (call1 "tan" a))),
    ("exp", fun a => call1 "exp" a),
    ("log", fun a => .div one a),
    ("sqrt", fun a => .div one (.mul two (call1 "sqrt" a))),
    ("abs", fun a => call1 "sign" a),
    ("asin", fun a => .div one (call1 "sqrt" (.sub one (square a)))),
    ("acos", fun a => .neg (.div one (call1 "sqrt" (.sub one (square a))))),
    ("atan", fun a => .div one (.add one (square a))),
    ("sinh", fun a => call1 "cosh" a),
    ("cosh", fun a => call1 "sinh" a),
    ("tanh", fun a => .sub one (square (call1 "tanh" a)))]

/-- The derivative of a known function at an argument. -/
def outerDerivative? (name : String) (a : Expr K) : Option (Expr K) :=
  (outerDerivatives.lookup name).map fun f => f a

/-- The derivative of a power from those of base and exponent.  The simple rule holds if the
exponent is constant. -/
def powDerivative (a b da db : Expr K) : Expr K :=
  if db.isZero then .mul (.mul b (.pow a (.sub b one))) da
  else .mul (.pow a b) (.add (.mul db (call1 "log" a)) (.div (.mul b da) a))

/-- The derivative of a call from those of its arguments. -/
def callDerivative (name : String) (args dargs : List (Expr K)) : Except SymbolicError (Expr K) :=
  if dargs.all isZero then .ok zero
  else match args, dargs with
    | [a], [da] =>
        match outerDerivative? name a with
        | some outer => .ok (.mul outer da)
        | none => .error (.notDifferentiable name)
    | _, _ => .error (.notDifferentiable name)

mutual

/-- The derivative of an expression, given the derivatives of symbols and time derivatives. -/
def derivative (leaf : Expr K → Expr K) : Expr K → Except SymbolicError (Expr K)
  | .num _ => .ok zero
  | .sym n => .ok (leaf (.sym n))
  | .der a => .ok (leaf (.der a))
  | .neg a => do
      let da ← derivative leaf a
      return .neg da
  | .add a b => do
      let da ← derivative leaf a
      let db ← derivative leaf b
      return .add da db
  | .sub a b => do
      let da ← derivative leaf a
      let db ← derivative leaf b
      return .sub da db
  | .mul a b => do
      let da ← derivative leaf a
      let db ← derivative leaf b
      return .add (.mul da b) (.mul a db)
  | .div a b => do
      let da ← derivative leaf a
      let db ← derivative leaf b
      return .div (.sub (.mul da b) (.mul a db)) (square b)
  | .pow a b => do
      let da ← derivative leaf a
      let db ← derivative leaf b
      return powDerivative a b da db.simplify
  | .call name args => do
      let dargs ← derivativeAll leaf args
      callDerivative name args dargs

/-- The simplified derivatives of the expressions of a list. -/
def derivativeAll (leaf : Expr K → Expr K) : List (Expr K) → Except SymbolicError (List (Expr K))
  | [] => .ok []
  | a :: rest => do
      let da ← derivative leaf a
      let drest ← derivativeAll leaf rest
      return da.simplify :: drest

end

/-- The derivative of an atom by an atom. -/
def unitLeaf (var atom : Expr K) : Expr K := if atom == var then one else zero

/-- The partial derivative by an atom, a symbol or a time derivative.  All other atoms are held
constant. -/
def diff (e var : Expr K) : Except SymbolicError (Expr K) := do
  let d ← e.derivative (unitLeaf var)
  return d.simplify

/-- The time derivative of an atom: a symbol may be dynamic, a time derivative always is. -/
def timeLeaf (dynamic : String → Bool) : Expr K → Expr K
  | .sym n => if dynamic n then .der (.sym n) else zero
  | .der a => .der (.der a)
  | _ => zero

/-- The total time derivative. -/
def timeDerivative (dynamic : String → Bool) (e : Expr K) : Except SymbolicError (Expr K) := do
  let d ← e.derivative (timeLeaf dynamic)
  return d.simplify

end FlatModel.Symbolic.Expr
