import Mathlib.Tactic.FieldSimp
import FlatModel.Proofs.ConstantDerivative
import FlatModel.Proofs.SimplifySound

/-!
# Values of derivatives

* `Expr.HasDerivative` — the derivative exists and has a certain value once it is simplified.
* `Expr.HasDerivative.neg`, `add`, `sub`, `mul`, `div`, `natPow`, `outerCall` — the rules of
  differentiation, with the values of the operands in them.
* `Expr.HasDerivative.of_constant` — what does not vary has the derivative zero.
* `Expr.finiteNumbers_of_value`, `noZeroDivisor_of_value` — what a value says of the form of an
  expression: its numbers are finite and no divisor simplifies to zero.
-/

namespace FlatModel.Symbolic.Expr

open ExactScalar (toRat?)

variable {K : Type} [ExactScalar K] {R : Reading K ℚ} {ρ : Valuation ℚ}

/-! ## Expressions with a value -/

mutual

/-- An expression with a value has finite numbers only. -/
theorem finiteNumbers_of_value : ∀ {e : Expr K} {v : ℚ}, e.value R.toFunctions ρ = some v →
    e.FiniteNumbers
  | .num n, _, hv => by
      obtain ⟨q, hq, _⟩ := value_num_eq_some.mp hv
      exact ⟨q, hq⟩
  | .sym _, _, _ => trivial
  | .der _, _, _ => trivial
  | .neg a, _, hv => by
      obtain ⟨x, hx, _⟩ := value_neg_eq_some.mp hv
      exact finiteNumbers_of_value (e := a) hx
  | .add a b, _, hv => by
      obtain ⟨x, y, hx, hy, _⟩ := value_add_eq_some.mp hv
      exact ⟨finiteNumbers_of_value hx, finiteNumbers_of_value hy⟩
  | .sub a b, _, hv => by
      obtain ⟨x, y, hx, hy, _⟩ := value_sub_eq_some.mp hv
      exact ⟨finiteNumbers_of_value hx, finiteNumbers_of_value hy⟩
  | .mul a b, _, hv => by
      obtain ⟨x, y, hx, hy, _⟩ := value_mul_eq_some.mp hv
      exact ⟨finiteNumbers_of_value hx, finiteNumbers_of_value hy⟩
  | .div a b, _, hv => by
      obtain ⟨x, y, hx, hy, _⟩ := value_div_eq_some.mp hv
      exact ⟨finiteNumbers_of_value hx, finiteNumbers_of_value hy⟩
  | .pow a b, _, hv => by
      obtain ⟨x, y, hx, hy, _⟩ := value_pow_eq_some.mp hv
      exact ⟨finiteNumbers_of_value hx, finiteNumbers_of_value hy⟩
  | .call f args, _, hv => by
      obtain ⟨xs, hxs, _⟩ := value_call_eq_some.mp hv
      exact finiteNumbers_of_valueAll (s := args) hxs

/-- Expressions with values have finite numbers only. -/
theorem finiteNumbers_of_valueAll : ∀ {s : List (Expr K)} {xs : List ℚ},
    valueAll R.toFunctions ρ s = some xs → AllLeavesOf FiniteLeaf s
  | [], _, _ => trivial
  | a :: rest, _, hxs => by
      obtain ⟨x, ys, hx, hys, _⟩ := valueAll_cons_eq_some.mp hxs
      exact ⟨finiteNumbers_of_value hx, finiteNumbers_of_valueAll hys⟩

end

mutual

/-- No divisor of an expression with a value simplifies to zero. -/
theorem noZeroDivisor_of_value : ∀ {e : Expr K} {v : ℚ}, e.value R.toFunctions ρ = some v →
    e.NoZeroDivisor
  | .num _, _, _ => trivial
  | .sym _, _, _ => trivial
  | .der _, _, _ => trivial
  | .neg a, _, hv => by
      obtain ⟨x, hx, _⟩ := value_neg_eq_some.mp hv
      exact noZeroDivisor_of_value (e := a) hx
  | .add a b, _, hv => by
      obtain ⟨x, y, hx, hy, _⟩ := value_add_eq_some.mp hv
      exact ⟨noZeroDivisor_of_value hx, noZeroDivisor_of_value hy⟩
  | .sub a b, _, hv => by
      obtain ⟨x, y, hx, hy, _⟩ := value_sub_eq_some.mp hv
      exact ⟨noZeroDivisor_of_value hx, noZeroDivisor_of_value hy⟩
  | .mul a b, _, hv => by
      obtain ⟨x, y, hx, hy, _⟩ := value_mul_eq_some.mp hv
      exact ⟨noZeroDivisor_of_value hx, noZeroDivisor_of_value hy⟩
  | .div a b, _, hv => by
      obtain ⟨x, y, hx, hy, hu, _⟩ := value_div_eq_some.mp hv
      refine ⟨Bool.eq_false_iff.mpr fun hzero => ?_, noZeroDivisor_of_value hx,
        noZeroDivisor_of_value hy⟩
      exact hu.ne_zero (value_eq_zero hzero (value_simplify hy))
  | .pow a b, _, hv => by
      obtain ⟨x, y, hx, hy, _⟩ := value_pow_eq_some.mp hv
      exact ⟨noZeroDivisor_of_value hx, noZeroDivisor_of_value hy⟩
  | .call f args, _, hv => by
      obtain ⟨xs, hxs, _⟩ := value_call_eq_some.mp hv
      exact noZeroDivisor_of_valueAll (s := args) hxs

/-- No divisor of expressions with values simplifies to zero. -/
theorem noZeroDivisor_of_valueAll : ∀ {s : List (Expr K)} {xs : List ℚ},
    valueAll R.toFunctions ρ s = some xs → AllDivisorsOf (fun b => b.simplify.isZero = false) s
  | [], _, _ => trivial
  | a :: rest, _, hxs => by
      obtain ⟨x, ys, hx, hys, _⟩ := valueAll_cons_eq_some.mp hxs
      exact ⟨noZeroDivisor_of_value hx, noZeroDivisor_of_valueAll hys⟩

end

/-- Squares of numbers fold to products, if powers with natural exponents are the usual ones. -/
theorem squaresFold_of_naturalPowers (hpow : R.NaturalPowers) : SquaresFold K := by
  intro x q r hq hr
  have hfold : R.pow q 2 = some r := R.pow_folds hq ExactScalar.toRat?_two hr
  have hnat : R.pow q 2 = some (q ^ 2) := hpow q 2
  rw [hnat, Option.some_inj] at hfold
  rw [← hfold, sq]

/-! ## Atoms -/

/-- The derivative of an atom is that of the leaf. -/
theorem derivative_expr {leaf : Expr K → Expr K} (α : Atom) :
    (α.expr : Expr K).derivative leaf = .ok (leaf α.expr) := by
  obtain ⟨n, _ | k⟩ := α <;> rfl

/-! ## Rules of differentiation -/

/-- The derivative of `e` exists, and its simplified form has the value `w`. -/
def HasDerivative (R : Reading K ℚ) (ρ : Valuation ℚ) (leaf : Expr K → Expr K) (e : Expr K)
    (w : ℚ) : Prop :=
  ∃ d, e.derivative leaf = .ok d ∧ d.simplify.value R.toFunctions ρ = some w

namespace HasDerivative

variable {leaf : Expr K → Expr K} {a b : Expr K} {x y dx dy : ℚ}

/-- The value of a partial derivative. -/
theorem value_diff {var d : Expr K} (ha : HasDerivative R ρ (unitLeaf var) a dx)
    (hd : a.diff var = .ok d) : d.value R.toFunctions ρ = some dx := by
  obtain ⟨d', hd', hdx⟩ := ha
  rw [diff, hd'] at hd
  cases hd
  exact hdx

theorem neg (ha : HasDerivative R ρ leaf a dx) : HasDerivative R ρ leaf (neg a) (-dx) := by
  obtain ⟨da, hda, hdx⟩ := ha
  exact ⟨.neg da, by rw [derivative, hda]; rfl, value_simplifyNeg hdx⟩

theorem add (ha : HasDerivative R ρ leaf a dx) (hb : HasDerivative R ρ leaf b dy) :
    HasDerivative R ρ leaf (add a b) (dx + dy) := by
  obtain ⟨da, hda, hdx⟩ := ha
  obtain ⟨db, hdb, hdy⟩ := hb
  exact ⟨.add da db, by rw [derivative, hda, hdb]; rfl, value_simplifyAdd hdx hdy⟩

theorem sub (ha : HasDerivative R ρ leaf a dx) (hb : HasDerivative R ρ leaf b dy) :
    HasDerivative R ρ leaf (sub a b) (dx - dy) := by
  obtain ⟨da, hda, hdx⟩ := ha
  obtain ⟨db, hdb, hdy⟩ := hb
  exact ⟨.sub da db, by rw [derivative, hda, hdb]; rfl, value_simplifySub hdx hdy⟩

/-- The product rule. -/
theorem mul (hx : a.value R.toFunctions ρ = some x) (hy : b.value R.toFunctions ρ = some y)
    (ha : HasDerivative R ρ leaf a dx) (hb : HasDerivative R ρ leaf b dy) :
    HasDerivative R ρ leaf (mul a b) (dx * y + x * dy) := by
  obtain ⟨da, hda, hdx⟩ := ha
  obtain ⟨db, hdb, hdy⟩ := hb
  exact ⟨.add (.mul da b) (.mul a db), by rw [derivative, hda, hdb]; rfl,
    value_simplifyAdd (value_simplifyMul hdx (value_simplify hy))
      (value_simplifyMul (value_simplify hx) hdy)⟩

/-- The quotient rule. -/
theorem div (hsquare : R.UsualSquares) (hx : a.value R.toFunctions ρ = some x)
    (hy : b.value R.toFunctions ρ = some y) (hy0 : y ≠ 0) (ha : HasDerivative R ρ leaf a dx)
    (hb : HasDerivative R ρ leaf b dy) :
    HasDerivative R ρ leaf (div a b) ((dx * y - x * dy) / y ^ 2) := by
  obtain ⟨da, hda, hdx⟩ := ha
  obtain ⟨db, hdb, hdy⟩ := hb
  have hy2 : (square b).simplify.value R.toFunctions ρ = some (y ^ 2) :=
    value_simplifyPow (value_simplify hy) value_two (hsquare y)
  have hnum : (Expr.sub (.mul da b) (.mul a db)).simplify.value R.toFunctions ρ =
      some (dx * y - x * dy) :=
    value_simplifySub (value_simplifyMul hdx (value_simplify hy))
      (value_simplifyMul (value_simplify hx) hdy)
  have hne : y ^ 2 ≠ 0 := pow_ne_zero 2 hy0
  exact ⟨.div (.sub (.mul da b) (.mul a db)) (square b), by rw [derivative, hda, hdb]; rfl,
    value_simplifyDiv hnum hy2 (isUnit_iff_ne_zero.mpr hne) (div_mul_cancel₀ _ hne)⟩

/-- The power rule, for a natural number as exponent. -/
theorem natPow (hpow : R.NaturalPowers) {m : K} {n : ℕ} (hm : toRat? m = some (n : ℚ))
    (hn : 1 ≤ n) (hx : a.value R.toFunctions ρ = some x) (ha : HasDerivative R ρ leaf a dx) :
    HasDerivative R ρ leaf (pow a (num m)) (n * x ^ (n - 1) * dx) := by
  obtain ⟨da, hda, hdx⟩ := ha
  have hexp : (num m).value R.toFunctions ρ = some (n : ℚ) := value_num hm
  have hless : (Expr.sub (num m) one).simplify.value R.toFunctions ρ = some ((n - 1 : ℕ) : ℚ) := by
    rw [Nat.cast_sub hn, Nat.cast_one]
    exact value_simplifySub hexp value_one
  have hlower : (Expr.pow a (.sub (num m) one)).simplify.value R.toFunctions ρ =
      some (x ^ (n - 1)) :=
    value_simplifyPow (value_simplify hx) hless (hpow x (n - 1))
  refine ⟨.mul (.mul (num m) (.pow a (.sub (num m) one))) da, ?_,
    value_simplifyMul (value_simplifyMul hexp hlower) hdx⟩
  rw [derivative, hda]
  exact congrArg Except.ok (if_pos (isZeroNumber_zero (K := K)).isZero)

/-- The chain rule, for the functions with a known derivative. -/
theorem outerCall {f : String} {outer : Expr K} (hf : outerDerivative? f a = some outer)
    (hy : outer.value R.toFunctions ρ = some y) (ha : HasDerivative R ρ leaf a dx) :
    HasDerivative R ρ leaf (call f [a]) (y * dx) := by
  obtain ⟨da, hda, hdx⟩ := ha
  have hall : derivativeAll leaf [a] = .ok [da.simplify] := by
    rw [derivativeAll, hda]
    rfl
  by_cases hzero : da.simplify.isZero = true
  · refine ⟨zero, ?_, ?_⟩
    · rw [derivative, hall]
      exact if_pos (by rw [List.all_cons, hzero]; rfl)
    · rw [value_eq_zero hzero hdx, mul_zero]
      exact value_zero
  · refine ⟨.mul outer da.simplify, ?_,
      value_simplifyMul (value_simplify hy) (value_simplify hdx)⟩
    rw [derivative, hall]
    show callDerivative f [a] [da.simplify] = _
    unfold callDerivative
    rw [if_neg (by rw [List.all_cons, List.all_nil, Bool.and_true]; exact hzero)]
    dsimp only
    rw [hf]

/-- What does not vary has the derivative zero. -/
theorem of_constant (hpow : R.NaturalPowers) (hx : a.value R.toFunctions ρ = some x)
    (hconst : a.AllLeaves (ConstantLeaf leaf)) : HasDerivative R ρ leaf a 0 := by
  obtain ⟨d, hd, n, hn, hn0⟩ := derivative_of_constant (squaresFold_of_naturalPowers hpow)
    (finiteNumbers_of_value hx) (noZeroDivisor_of_value hx) hconst
  exact ⟨d, hd, by rw [hn]; exact value_num hn0⟩

/-- An atom has the derivative one by itself and zero by all other atoms. -/
theorem atom (α β : Atom) :
    HasDerivative R ρ (unitLeaf β.expr) α.expr (if α = β then 1 else 0) := by
  refine ⟨unitLeaf β.expr α.expr, derivative_expr α, ?_⟩
  unfold unitLeaf
  split_ifs with hbeq heq heq
  · exact value_one
  · exact absurd (expr_beq_expr.mp hbeq) heq
  · exact absurd (expr_beq_expr.mpr heq) hbeq
  · exact value_zero

end HasDerivative

end FlatModel.Symbolic.Expr
