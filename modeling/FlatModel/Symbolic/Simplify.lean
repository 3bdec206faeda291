import FlatModel.Symbolic.Expr

/-!
# Simplification

Numbers are folded and identities applied from the leaves up.  The result is no normal form: equal
expressions may still look different.

* `Expr.simplifyNeg`, `simplifyAdd`, `simplifySub`, `simplifyMul`, `simplifyDiv`, `simplifyPow`,
  `simplifyCall` — the simplified form of one operator over given operands, by the first rule that
  fits.  Signs are pulled outward; in a product a number goes to the left and is merged with a
  number at the left of the other factor.
* `Expr.foldedPow?`, `Expr.foldedCall?` — powers and calls of numbers are folded only if the
  outcome is finite.
* `Expr.simplify` — the whole expression, operands first.

Every rule that goes on with other operands takes away a node, which is why the functions end.
-/

namespace FlatModel.Symbolic.Expr

variable {K : Type} [Scalar K]

/-! ## One operator -/

/-- The opposite of an expression. -/
def simplifyNeg : Expr K → Expr K
  | .num x => .num (Scalar.neg x)
  | .neg a => a
  | .sub a b => .sub b a
  | a => .neg a

/-- The product of two expressions. -/
def simplifyMul (a b : Expr K) : Expr K :=
  match a, b with
  | .num x, .num y => .num (Scalar.mul x y)
  | a, b =>
      if a.isZero || b.isZero then zero
      else if a.isOne then b
      else if b.isOne then a
      else if a.isMinusOne then simplifyNeg b
      else if b.isMinusOne then simplifyNeg a
      else match a, b with
        | .neg c, b => simplifyNeg (simplifyMul c b)
        | a, .neg c => simplifyNeg (simplifyMul a c)
        | .mul (.num c) d, .num y => simplifyMul (.num (Scalar.mul y c)) d
        | a, .num y => .mul (.num y) a
        | .num x, .mul (.num c) d => simplifyMul (.num (Scalar.mul x c)) d
        | a, b => .mul a b
termination_by a.size + b.size
decreasing_by all_goals simp only [size]; omega

mutual

/-- The sum of two expressions.  A sum with an opposite or with a number below zero becomes a
difference, a sum of equals a product with two. -/
def simplifyAdd (a b : Expr K) : Expr K :=
  match a, b with
  | .num x, .num y => .num (Scalar.add x y)
  | a, b =>
      if a.isZero then b
      else if b.isZero then a
      else match a, b with
        | a, .neg c => simplifySub a c
        | .neg c, b => simplifySub b c
        | a, b =>
            match b.negated? with
            | some y => .sub a (.num y)
            | none => if a == b then simplifyMul two a else .add a b
termination_by a.size + b.size
decreasing_by all_goals simp only [size]; omega

/-- The difference of two expressions.  A difference with an opposite or with a number below zero
becomes a sum, a difference of equals zero. -/
def simplifySub (a b : Expr K) : Expr K :=
  match a, b with
  | .num x, .num y => .num (Scalar.sub x y)
  | a, b =>
      if b.isZero then a
      else if a.isZero then simplifyNeg b
      else if a == b then zero
      else match a, b with
        | a, .neg c => simplifyAdd a c
        | a, b =>
            match b.negated?, a with
            | some y, .neg c => simplifySub (.num y) c
            | some y, a => .add a (.num y)
            | none, a => .sub a b
termination_by a.size + b.size
decreasing_by
  all_goals
    have hb := size_pos b
    simp only [size]
    omega

end

/-- The quotient of two expressions.  Nothing is divided by the number zero, and only what is not
the number zero gives one when divided by its equal. -/
def simplifyDiv (a b : Expr K) : Expr K :=
  match a, b with
  | .num x, .num y =>
      if Scalar.isZero y then .div (.num x) (.num y) else .num (Scalar.div x y)
  | a, b =>
      if a.isZero && !b.isZero then zero
      else if b.isOne then a
      else if b.isMinusOne then simplifyNeg a
      else if a == b && !a.isZero then one
      else match a, b with
        | .neg c, b => simplifyNeg (simplifyDiv c b)
        | a, .neg c => simplifyNeg (simplifyDiv a c)
        | a, b => .div a b
termination_by a.size + b.size
decreasing_by all_goals simp only [size]; omega

/-- A power of numbers, if it is finite. -/
def foldedPow? : Expr K → Expr K → Option K
  | .num x, .num y =>
      let p := Scalar.pow x y
      if Scalar.isFinite p then some p else none
  | _, _ => none

/-- The power of two expressions. -/
def simplifyPow (a b : Expr K) : Expr K :=
  match foldedPow? a b with
  | some p => .num p
  | none =>
      if b.isZero then one
      else if b.isOne then a
      else if a.isOne then one
      else .pow a b

/-- The value of a function of numbers, if it has one and it is finite. -/
def foldedCall? (name : String) (args : List (Expr K)) : Option K := do
  let values ← args.mapM number?
  let value ← Scalar.call? name values
  if Scalar.isFinite value then some value else none

/-- The call of a function. -/
def simplifyCall (name : String) (args : List (Expr K)) : Expr K :=
  match foldedCall? name args with
  | some value => .num value
  | none => .call name args

/-! ## Whole expressions -/

mutual

/-- The expression simplified from the leaves up. -/
def simplify : Expr K → Expr K
  | .num x => .num x
  | .sym n => .sym n
  | .der a => .der a.simplify
  | .neg a => simplifyNeg a.simplify
  | .add a b => simplifyAdd a.simplify b.simplify
  | .sub a b => simplifySub a.simplify b.simplify
  | .mul a b => simplifyMul a.simplify b.simplify
  | .div a b => simplifyDiv a.simplify b.simplify
  | .pow a b => simplifyPow a.simplify b.simplify
  | .call f args => simplifyCall f (simplifyAll args)

/-- Simplify every expression of a list. -/
def simplifyAll : List (Expr K) → List (Expr K)
  | [] => []
  | a :: rest => a.simplify :: simplifyAll rest

end

end FlatModel.Symbolic.Expr
