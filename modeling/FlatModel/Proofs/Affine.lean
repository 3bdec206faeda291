import Mathlib.Algebra.CharZero.Infinite
import Mathlib.Algebra.Polynomial.Derivative
import Mathlib.Algebra.Polynomial.Roots
import Mathlib.Tactic.Linarith
import FlatModel.Proofs.Unknowns

/-!
# Constant partial derivatives make an expression affine

Along a line from zero, an expression in which unknowns are only added, multiplied and divided by
something without unknowns is a polynomial.  Its derivative is the sum of its partial derivatives,
each times the direction of its unknown.  If none of the partial derivatives contains an unknown,
the polynomial is affine, whatever the expression looks like.

* `Expr.PolynomialIn` — where unknowns may occur.
* `Expr.AlongLine` — a polynomial for an expression along a line, and one for each of its partial
  derivatives.
* `Expr.exists_alongLine` — they exist, by one lemma for each operator.
* `Expr.value_affine` — the value of an expression with constant partial derivatives.
-/

namespace FlatModel.Symbolic.Expr

open Polynomial (X C)

variable {K : Type} [ExactScalar K] {n : ℕ}

/-- The unknowns occur only in sums, differences, opposites, products and dividends. -/
def PolynomialIn (u : Fin n → Atom) : Expr K → Prop
  | .num _ => True
  | .sym _ => True
  | .der _ => True
  | .neg a => a.PolynomialIn u
  | .add a b => a.PolynomialIn u ∧ b.PolynomialIn u
  | .sub a b => a.PolynomialIn u ∧ b.PolynomialIn u
  | .mul a b => a.PolynomialIn u ∧ b.PolynomialIn u
  | .div a b => a.PolynomialIn u ∧ b.FreeOf u
  | .pow a b => (pow a b).FreeOf u
  | .call f args => (call f args).FreeOf u

/-- Along the line to `z` the expression is the polynomial `Q` and its partial derivative by the
unknown `i` the polynomial `G i`; the derivative of `Q` is the sum of the `G i` times `z i`. -/
structure AlongLine (R : Reading K ℚ) (ρ : Valuation ℚ) (u : Fin n → Atom) (z : Fin n → ℚ)
    (e : Expr K) (Q : Polynomial ℚ) (G : Fin n → Polynomial ℚ) : Prop where
  /-- The value on the line. -/
  value : ∀ s : ℚ, e.value R.toFunctions (ρ.assign u (s • z)) = some (Q.eval s)
  /-- The partial derivatives on the line. -/
  partials : ∀ (s : ℚ) (i : Fin n),
    HasDerivative R (ρ.assign u (s • z)) (unitLeaf (u i).expr) e ((G i).eval s)
  /-- The derivative along the line. -/
  chain : Q.derivative = ∑ i, C (z i) * G i

namespace AlongLine

variable {R : Reading K ℚ} {ρ : Valuation ℚ} {u : Fin n → Atom} {z : Fin n → ℚ} {a b : Expr K}
  {P Q : Polynomial ℚ} {G H : Fin n → Polynomial ℚ}

/-- Without unknowns nothing changes along the line. -/
theorem of_freeOf (hpow : R.NaturalPowers) {x : ℚ} (ha : a.FreeOf u)
    (hx : a.value R.toFunctions ρ = some x) : AlongLine R ρ u z a (C x) 0 := by
  have hvalue : ∀ s : ℚ, a.value R.toFunctions (ρ.assign u (s • z)) = some x := fun s =>
    (ha.value_assign _).trans hx
  refine ⟨fun s => ?_, fun s i => ?_, ?_⟩
  · rw [Polynomial.eval_C]
    exact hvalue s
  · rw [Pi.zero_apply, Polynomial.eval_zero]
    exact .of_constant hpow (hvalue s) (ha.constantLeaves i)
  · simp

/-- An unknown moves in its direction. -/
theorem unknown (hu : Function.Injective u) (i : Fin n) :
    AlongLine R ρ u z (u i).expr (C (z i) * X) (Pi.single i 1) := by
  refine ⟨fun s => ?_, fun s j => ?_, ?_⟩
  · rw [value_atom, Valuation.assign_unknown hu, Polynomial.eval_mul, Polynomial.eval_C,
      Polynomial.eval_X, Pi.smul_apply, smul_eq_mul, mul_comm]
  · have h := HasDerivative.atom (R := R) (ρ := ρ.assign u (s • z)) (u i) (u j)
    by_cases hij : j = i
    · subst hij
      rw [if_pos rfl] at h
      rwa [Pi.single_eq_same, Polynomial.eval_one]
    · rw [if_neg (hu.ne (Ne.symm hij))] at h
      rwa [Pi.single_eq_of_ne hij, Polynomial.eval_zero]
  · simp [Pi.single_apply]

theorem neg (ha : AlongLine R ρ u z a P G) : AlongLine R ρ u z (neg a) (-P) (-G) := by
  refine ⟨fun s => ?_, fun s i => ?_, ?_⟩
  · rw [Polynomial.eval_neg]
    exact value_neg (ha.value s)
  · rw [Pi.neg_apply, Polynomial.eval_neg]
    exact (ha.partials s i).neg
  · simp [ha.chain]

theorem add (ha : AlongLine R ρ u z a P G) (hb : AlongLine R ρ u z b Q H) :
    AlongLine R ρ u z (add a b) (P + Q) (G + H) := by
  refine ⟨fun s => ?_, fun s i => ?_, ?_⟩
  · rw [Polynomial.eval_add]
    exact value_add (ha.value s) (hb.value s)
  · rw [Pi.add_apply, Polynomial.eval_add]
    exact (ha.partials s i).add (hb.partials s i)
  · simp [ha.chain, hb.chain, mul_add, Finset.sum_add_distrib]

theorem sub (ha : AlongLine R ρ u z a P G) (hb : AlongLine R ρ u z b Q H) :
    AlongLine R ρ u z (sub a b) (P - Q) (G - H) := by
  refine ⟨fun s => ?_, fun s i => ?_, ?_⟩
  · rw [Polynomial.eval_sub]
    exact value_sub (ha.value s) (hb.value s)
  · rw [Pi.sub_apply, Polynomial.eval_sub]
    exact (ha.partials s i).sub (hb.partials s i)
  · simp [ha.chain, hb.chain, mul_sub, Finset.sum_sub_distrib]

/-- The product rule. -/
theorem mul (ha : AlongLine R ρ u z a P G) (hb : AlongLine R ρ u z b Q H) :
    AlongLine R ρ u z (mul a b) (P * Q) (fun i => G i * Q + P * H i) := by
  refine ⟨fun s => ?_, fun s i => ?_, ?_⟩
  · rw [Polynomial.eval_mul]
    exact value_mul (ha.value s) (hb.value s)
  · rw [Polynomial.eval_add, Polynomial.eval_mul, Polynomial.eval_mul]
    exact .mul (ha.value s) (hb.value s) (ha.partials s i) (hb.partials s i)
  · rw [Polynomial.derivative_mul, ha.chain, hb.chain, Finset.sum_mul, Finset.mul_sum,
      ← Finset.sum_add_distrib]
    exact Finset.sum_congr rfl fun i _ => by ring

/-- Divided by something without unknowns. -/
theorem div (hpow : R.NaturalPowers) {y : ℚ} (hy0 : y ≠ 0) (ha : AlongLine R ρ u z a P G)
    (hb : AlongLine R ρ u z b (C y) 0) :
    AlongLine R ρ u z (div a b) (P * C y⁻¹) (fun i => G i * C y⁻¹) := by
  have hvalue : ∀ s : ℚ, b.value R.toFunctions (ρ.assign u (s • z)) = some y := fun s => by
    rw [hb.value s, Polynomial.eval_C]
  refine ⟨fun s => ?_, fun s i => ?_, ?_⟩
  · rw [Polynomial.eval_mul, Polynomial.eval_C]
    exact value_div (ha.value s) (hvalue s) (isUnit_iff_ne_zero.mpr hy0)
      (inv_mul_cancel_right₀ hy0 _)
  · have hconst : HasDerivative R (ρ.assign u (s • z)) (unitLeaf (u i).expr) b 0 := by
      have h := hb.partials s i
      rwa [Pi.zero_apply, Polynomial.eval_zero] at h
    have h := HasDerivative.div hpow.usualSquares (ha.value s) (hvalue s) hy0 (ha.partials s i) hconst
    have heq : (G i * C y⁻¹).eval s = ((G i).eval s * y - P.eval s * 0) / y ^ 2 := by
      rw [Polynomial.eval_mul, Polynomial.eval_C]
      field_simp
      ring
    rwa [heq]
  · rw [Polynomial.derivative_mul, Polynomial.derivative_C, mul_zero, add_zero, ha.chain,
      Finset.sum_mul]
    exact Finset.sum_congr rfl fun i _ => by ring

end AlongLine

section

variable {R : Reading K ℚ} {ρ : Valuation ℚ} {u : Fin n → Atom}

/-- An atom is a polynomial along every line, whether it is an unknown or not. -/
theorem exists_alongLine_atom (hpow : R.NaturalPowers) (hu : Function.Injective u)
    (y z : Fin n → ℚ) {α : Atom} {v : ℚ} (hv : ρ.assign u y α = some v) :
    ∃ Q G, AlongLine R ρ u z (α.expr : Expr K) Q G := by
  by_cases hα : ∃ i, u i = α
  · obtain ⟨i, rfl⟩ := hα
    exact ⟨_, _, .unknown hu i⟩
  · have hne : ∀ i, u i ≠ α := fun i hi => hα ⟨i, hi⟩
    rw [Valuation.assign_of_ne hne] at hv
    exact ⟨_, _, .of_freeOf hpow (freeOf_expr fun i hi => hne i hi.symm)
      ((value_atom α).trans hv)⟩

/-- **An expression that is polynomial in its unknowns is a polynomial along every line**, if it is
defined for some values of the unknowns. -/
theorem exists_alongLine (hpow : R.NaturalPowers) (hu : Function.Injective u) (y z : Fin n → ℚ) :
    ∀ {e : Expr K} {v : ℚ}, e.PolynomialIn u → e.value R.toFunctions (ρ.assign u y) = some v →
      ∃ Q G, AlongLine R ρ u z e Q G
  | .num m, v, _, hv => ⟨_, _, .of_freeOf hpow (freeOf_num m) hv⟩
  | .sym n, v, _, hv => exists_alongLine_atom hpow hu y z (α := ⟨n, 0⟩) hv
  | .der a, v, _, hv => by
      obtain ⟨α, hα, hρ⟩ := Option.bind_eq_some_iff.mp hv
      have hder : (Expr.der a).atom? = some α.der := congrArg (Option.map Atom.der) hα
      rw [eq_expr_of_atom? hder]
      exact exists_alongLine_atom hpow hu y z hρ
  | .neg a, v, he, hv => by
      obtain ⟨x, hx, _⟩ := value_neg_eq_some.mp hv
      obtain ⟨P, G, ha⟩ := exists_alongLine hpow hu y z (e := a) he hx
      exact ⟨_, _, ha.neg⟩
  | .add a b, v, he, hv => by
      obtain ⟨x, x', hx, hx', _⟩ := value_add_eq_some.mp hv
      obtain ⟨P, G, ha⟩ := exists_alongLine hpow hu y z he.1 hx
      obtain ⟨Q, H, hb⟩ := exists_alongLine hpow hu y z he.2 hx'
      exact ⟨_, _, ha.add hb⟩
  | .sub a b, v, he, hv => by
      obtain ⟨x, x', hx, hx', _⟩ := value_sub_eq_some.mp hv
      obtain ⟨P, G, ha⟩ := exists_alongLine hpow hu y z he.1 hx
      obtain ⟨Q, H, hb⟩ := exists_alongLine hpow hu y z he.2 hx'
      exact ⟨_, _, ha.sub hb⟩
  | .mul a b, v, he, hv => by
      obtain ⟨x, x', hx, hx', _⟩ := value_mul_eq_some.mp hv
      obtain ⟨P, G, ha⟩ := exists_alongLine hpow hu y z he.1 hx
      obtain ⟨Q, H, hb⟩ := exists_alongLine hpow hu y z he.2 hx'
      exact ⟨_, _, ha.mul hb⟩
  | .div a b, v, he, hv => by
      obtain ⟨x, x', hx, hx', hunit, _⟩ := value_div_eq_some.mp hv
      obtain ⟨P, G, ha⟩ := exists_alongLine hpow hu y z he.1 hx
      rw [he.2.value_assign] at hx'
      exact ⟨_, _, ha.div hpow hunit.ne_zero (.of_freeOf hpow he.2 hx')⟩
  | .pow a b, v, he, hv => by
      rw [FreeOf.value_assign he] at hv
      exact ⟨_, _, .of_freeOf hpow he hv⟩
  | .call f args, v, he, hv => by
      rw [FreeOf.value_assign he] at hv
      exact ⟨_, _, .of_freeOf hpow he hv⟩

/-- A polynomial with a constant derivative grows evenly. -/
theorem eval_one_of_derivative_eq_C {Q : Polynomial ℚ} {c : ℚ} (h : Q.derivative = C c) :
    Q.eval 1 = Q.eval 0 + c := by
  have hconst : (Q - C c * X).derivative = 0 := by
    rw [Polynomial.derivative_sub, h, Polynomial.derivative_C_mul, Polynomial.derivative_X, mul_one,
      sub_self]
  have heval : ∀ s, (Q - C c * X).eval s = (Q - C c * X).coeff 0 := fun s => by
    rw [Polynomial.eq_C_of_derivative_eq_zero hconst, Polynomial.eval_C, Polynomial.coeff_C_zero]
  have h01 := (heval 1).trans (heval 0).symm
  simp only [Polynomial.eval_sub, Polynomial.eval_mul, Polynomial.eval_C, Polynomial.eval_X] at h01
  linarith

/-- **Partial derivatives without unknowns make an expression affine.**  They have the values of the
coefficients. -/
theorem value_affine (hpow : R.NaturalPowers) (hu : Function.Injective u) {e : Expr K}
    {y : Fin n → ℚ} {v : ℚ} (he : e.PolynomialIn u)
    (hv : e.value R.toFunctions (ρ.assign u y) = some v) {d : Fin n → Expr K}
    (hd : ∀ i, e.diff (u i).expr = .ok (d i)) (hfree : ∀ i, (d i).FreeOf u) :
    ∃ (r : ℚ) (a : Fin n → ℚ), (∀ i, (d i).value R.toFunctions ρ = some (a i)) ∧
      ∀ z, e.value R.toFunctions (ρ.assign u z) = some (r + ∑ i, a i * z i) := by
  obtain ⟨Q₀, G₀, h₀⟩ := exists_alongLine hpow hu y 0 he hv
  have ha : ∀ i, (d i).value R.toFunctions ρ = some ((G₀ i).eval 0) := fun i => by
    rw [← (hfree i).value_assign ((0 : ℚ) • 0)]
    exact (h₀.partials 0 i).value_diff (hd i)
  refine ⟨Q₀.eval 0, fun i => (G₀ i).eval 0, ha, fun z => ?_⟩
  obtain ⟨Q, G, h⟩ := exists_alongLine hpow hu y z he hv
  -- the partial derivatives do not change along the line
  have hG : ∀ i, G i = C ((G₀ i).eval 0) := fun i => Polynomial.funext fun s => by
    have hs := (h.partials s i).value_diff (hd i)
    rw [(hfree i).value_assign, ha i, Option.some_inj] at hs
    rw [Polynomial.eval_C, hs]
  have hderivative : Q.derivative = C (∑ i, (G₀ i).eval 0 * z i) := by
    rw [h.chain, map_sum]
    exact Finset.sum_congr rfl fun i _ => by rw [hG i, ← map_mul, mul_comm]
  have hzero : Q.eval 0 = Q₀.eval 0 := by
    have hQ := h.value 0
    rw [zero_smul, ← smul_zero (0 : ℚ), h₀.value 0, Option.some_inj] at hQ
    exact hQ.symm
  have hvalue := h.value 1
  rw [one_smul, eval_one_of_derivative_eq_C hderivative, hzero] at hvalue
  exact hvalue

end

end FlatModel.Symbolic.Expr
