import Mathlib
import FlatModel.Dae.Reduction
import FlatModel.Proofs.Unknowns

/-!
# Constant partial derivatives make a fraction affine

Along a line, an expression in which unknowns are added, multiplied and divided is a fraction of two
polynomials, defined where the denominator is not zero.

* `Expr.RationalIn` — the expressions of numbers, symbols and unknowns under the four operations.
* `Expr.FractionOn` — numerator and denominator of an expression on a line, and numerators of its
  partial derivatives over the square of the denominator.
* `Expr.exists_fractionOn` — they exist where the expression is defined at the start of the line, by one
  lemma for each operator.
* `eval_eq_of_proportional` — two polynomials with proportional derivatives are proportional.
* `Expr.value_line` — the value at the end of a line, if no partial derivative contains an unknown.
-/

namespace FlatModel.Symbolic.Expr

open Polynomial (X C)

variable {K : Type} [ExactScalar K] {n : ℕ}

/-- Numbers, symbols and unknowns under the four operations. -/
def RationalIn (u : Fin n → Atom) : Expr K → Prop
  | .num _ => True
  | .sym _ => True
  | .der a => ∃ i, Expr.der a = (u i).expr
  | .neg a => a.RationalIn u
  | .add a b => a.RationalIn u ∧ b.RationalIn u
  | .sub a b => a.RationalIn u ∧ b.RationalIn u
  | .mul a b => a.RationalIn u ∧ b.RationalIn u
  | .div a b => a.RationalIn u ∧ b.RationalIn u
  | .pow _ _ => False
  | .call _ _ => False

omit [ExactScalar K] in
/-- The only time derivatives are unknowns. -/
theorem RationalIn.plainLeaves {u : Fin n → Atom} : ∀ {e : Expr K}, e.RationalIn u →
    e.AllLeaves (PlainLeaf u)
  | .num _, _ | .sym _, _ => trivial
  | .der _, he => he
  | .neg a, he => RationalIn.plainLeaves (e := a) he
  | .add _ _, he | .sub _ _, he | .mul _ _, he | .div _ _, he =>
      ⟨he.1.plainLeaves, he.2.plainLeaves⟩

/-- On the line from `y` in the direction `z` the expression is the fraction of `N` and `M`, defined
where `M` is not zero, and its partial derivative by the unknown `i` is the fraction of `G i` and
`M ^ 2`.  The numerator of the derivative on the line is the sum of the `G i` times `z i`. -/
structure FractionOn (R : Reading K ℚ) (ρ : Valuation ℚ) (u : Fin n → Atom) (y z : Fin n → ℚ)
    (e : Expr K) (N M : Polynomial ℚ) (G : Fin n → Polynomial ℚ) : Prop where
  /-- The denominator is not zero where there is a value. -/
  ne_zero : ∀ (s : ℚ) {v : ℚ}, e.value R.toFunctions (ρ.assign u (y + s • z)) = some v →
    M.eval s ≠ 0
  /-- The value on the line. -/
  value : ∀ s : ℚ, M.eval s ≠ 0 →
    e.value R.toFunctions (ρ.assign u (y + s • z)) = some (N.eval s / M.eval s)
  /-- The partial derivatives on the line. -/
  partials : ∀ (s : ℚ) (i : Fin n), M.eval s ≠ 0 →
    HasDerivative R (ρ.assign u (y + s • z)) (unitLeaf (u i).expr) e
      ((G i).eval s / M.eval s ^ 2)
  /-- The derivative on the line. -/
  chain : N.derivative * M - N * M.derivative = ∑ i, C (z i) * G i

namespace FractionOn

variable {R : Reading K ℚ} {ρ : Valuation ℚ} {u : Fin n → Atom} {y z : Fin n → ℚ} {a b : Expr K}
  {N M P Q : Polynomial ℚ} {G H : Fin n → Polynomial ℚ}

/-- What does not change on the line. -/
theorem const {x : ℚ} (hx : ∀ s : ℚ, a.value R.toFunctions (ρ.assign u (y + s • z)) = some x)
    (hd : ∀ (s : ℚ) i, HasDerivative R (ρ.assign u (y + s • z)) (unitLeaf (u i).expr) a 0) :
    FractionOn R ρ u y z a (C x) 1 0 := by
  refine ⟨fun s v _ => ?_, fun s _ => ?_, fun s i _ => ?_, ?_⟩
  · rw [Polynomial.eval_one]
    exact one_ne_zero
  · rw [hx s, Polynomial.eval_C, Polynomial.eval_one, div_one]
  · rw [Pi.zero_apply, Polynomial.eval_zero, zero_div]
    exact hd s i
  · simp

/-- An unknown moves in its direction. -/
theorem unknown (hu : Function.Injective u) (i : Fin n) :
    FractionOn R ρ u y z (u i).expr (C (y i) + C (z i) * X) 1 (Pi.single i 1) := by
  refine ⟨fun s v _ => ?_, fun s _ => ?_, fun s j _ => ?_, ?_⟩
  · rw [Polynomial.eval_one]
    exact one_ne_zero
  · rw [value_atom, Valuation.assign_unknown hu, Polynomial.eval_one, div_one, Polynomial.eval_add,
      Polynomial.eval_mul, Polynomial.eval_C, Polynomial.eval_C, Polynomial.eval_X, Pi.add_apply,
      Pi.smul_apply, smul_eq_mul, mul_comm]
  · rw [Polynomial.eval_one, one_pow, div_one]
    have h := HasDerivative.atom (R := R) (ρ := ρ.assign u (y + s • z)) (u i) (u j)
    by_cases hij : j = i
    · subst hij
      rw [if_pos rfl] at h
      rwa [Pi.single_eq_same, Polynomial.eval_one]
    · rw [if_neg (hu.ne (Ne.symm hij))] at h
      rwa [Pi.single_eq_of_ne hij, Polynomial.eval_zero]
  · simp [Pi.single_apply]

theorem neg (ha : FractionOn R ρ u y z a N M G) : FractionOn R ρ u y z (neg a) (-N) M (-G) := by
  refine ⟨fun s v hv => ?_, fun s hs => ?_, fun s i hs => ?_, ?_⟩
  · obtain ⟨x, hx, _⟩ := value_neg_eq_some.mp hv
    exact ha.ne_zero s hx
  · rw [Polynomial.eval_neg, neg_div]
    exact value_neg (ha.value s hs)
  · rw [Pi.neg_apply, Polynomial.eval_neg, neg_div]
    exact (ha.partials s i hs).neg
  · have h := ha.chain
    simp only [Polynomial.derivative_neg, Pi.neg_apply, mul_neg, Finset.sum_neg_distrib]
    linear_combination -h

/-- The common denominator of two fractions is not zero just where both denominators are not. -/
theorem eval_mul_ne_zero {s : ℚ} : (M * Q).eval s ≠ 0 ↔ M.eval s ≠ 0 ∧ Q.eval s ≠ 0 := by
  rw [Polynomial.eval_mul, mul_ne_zero_iff]

/-- The chain rule for two fractions with a common denominator. -/
theorem sum_combine (A B : Polynomial ℚ) (z : Fin n → ℚ) :
    ∑ i, C (z i) * (A * G i + B * H i) =
      A * (∑ i, C (z i) * G i) + B * ∑ i, C (z i) * H i := by
  rw [Finset.mul_sum, Finset.mul_sum, ← Finset.sum_add_distrib]
  exact Finset.sum_congr rfl fun i _ => by ring

theorem add (ha : FractionOn R ρ u y z a N M G) (hb : FractionOn R ρ u y z b P Q H) :
    FractionOn R ρ u y z (add a b) (N * Q + P * M) (M * Q)
      (fun i => Q ^ 2 * G i + M ^ 2 * H i) := by
  refine ⟨fun s v hv => ?_, fun s hs => ?_, fun s i hs => ?_, ?_⟩
  · obtain ⟨x, x', hx, hx', _⟩ := value_add_eq_some.mp hv
    exact eval_mul_ne_zero.mpr ⟨ha.ne_zero s hx, hb.ne_zero s hx'⟩
  · obtain ⟨hM, hQ⟩ := eval_mul_ne_zero.mp hs
    rw [value_add (ha.value s hM) (hb.value s hQ)]
    congr 1
    simp only [Polynomial.eval_add, Polynomial.eval_mul]
    field_simp
  · obtain ⟨hM, hQ⟩ := eval_mul_ne_zero.mp hs
    have h := (ha.partials s i hM).add (hb.partials s i hQ)
    convert h using 1
    simp only [Polynomial.eval_add, Polynomial.eval_mul, Polynomial.eval_pow]
    field_simp
  · rw [sum_combine, ← ha.chain, ← hb.chain]
    simp only [Polynomial.derivative_add, Polynomial.derivative_mul]
    ring

theorem sub (ha : FractionOn R ρ u y z a N M G) (hb : FractionOn R ρ u y z b P Q H) :
    FractionOn R ρ u y z (sub a b) (N * Q - P * M) (M * Q)
      (fun i => Q ^ 2 * G i + -M ^ 2 * H i) := by
  refine ⟨fun s v hv => ?_, fun s hs => ?_, fun s i hs => ?_, ?_⟩
  · obtain ⟨x, x', hx, hx', _⟩ := value_sub_eq_some.mp hv
    exact eval_mul_ne_zero.mpr ⟨ha.ne_zero s hx, hb.ne_zero s hx'⟩
  · obtain ⟨hM, hQ⟩ := eval_mul_ne_zero.mp hs
    rw [value_sub (ha.value s hM) (hb.value s hQ)]
    congr 1
    simp only [Polynomial.eval_sub, Polynomial.eval_mul]
    field_simp
  · obtain ⟨hM, hQ⟩ := eval_mul_ne_zero.mp hs
    have h := (ha.partials s i hM).sub (hb.partials s i hQ)
    convert h using 1
    simp only [Polynomial.eval_add, Polynomial.eval_neg, Polynomial.eval_mul, Polynomial.eval_pow]
    field_simp
    ring
  · rw [sum_combine, ← ha.chain, ← hb.chain]
    simp only [Polynomial.derivative_sub, Polynomial.derivative_mul]
    ring

/-- The product rule. -/
theorem mul (ha : FractionOn R ρ u y z a N M G) (hb : FractionOn R ρ u y z b P Q H) :
    FractionOn R ρ u y z (mul a b) (N * P) (M * Q)
      (fun i => P * Q * G i + N * M * H i) := by
  refine ⟨fun s v hv => ?_, fun s hs => ?_, fun s i hs => ?_, ?_⟩
  · obtain ⟨x, x', hx, hx', _⟩ := value_mul_eq_some.mp hv
    exact eval_mul_ne_zero.mpr ⟨ha.ne_zero s hx, hb.ne_zero s hx'⟩
  · obtain ⟨hM, hQ⟩ := eval_mul_ne_zero.mp hs
    rw [value_mul (ha.value s hM) (hb.value s hQ)]
    congr 1
    simp only [Polynomial.eval_mul]
    field_simp
  · obtain ⟨hM, hQ⟩ := eval_mul_ne_zero.mp hs
    have h := HasDerivative.mul (ha.value s hM) (hb.value s hQ) (ha.partials s i hM)
      (hb.partials s i hQ)
    convert h using 1
    simp only [Polynomial.eval_add, Polynomial.eval_mul]
    field_simp
  · rw [sum_combine, ← ha.chain, ← hb.chain]
    simp only [Polynomial.derivative_mul]
    ring

/-- The quotient rule.  The denominator is also zero where the divisor is. -/
theorem div (hsquare : R.UsualSquares) (ha : FractionOn R ρ u y z a N M G)
    (hb : FractionOn R ρ u y z b P Q H) :
    FractionOn R ρ u y z (div a b) (N * Q ^ 2) (M * (P * Q))
      (fun i => P * Q ^ 3 * G i + -(N * M * Q ^ 2) * H i) := by
  refine ⟨fun s v hv => ?_, fun s hs => ?_, fun s i hs => ?_, ?_⟩
  · obtain ⟨x, x', hx, hx', hunit, _⟩ := value_div_eq_some.mp hv
    have hQ := hb.ne_zero s hx'
    rw [hb.value s hQ, Option.some_inj] at hx'
    have hP : P.eval s ≠ 0 := fun hP => hunit.ne_zero (by rw [← hx', hP, zero_div])
    exact eval_mul_ne_zero.mpr ⟨ha.ne_zero s hx, eval_mul_ne_zero.mpr ⟨hP, hQ⟩⟩
  · obtain ⟨hM, hPQ⟩ := eval_mul_ne_zero.mp hs
    obtain ⟨hP, hQ⟩ := eval_mul_ne_zero.mp hPQ
    refine value_div (ha.value s hM) (hb.value s hQ)
      (isUnit_iff_ne_zero.mpr (div_ne_zero hP hQ)) ?_
    simp only [Polynomial.eval_mul, Polynomial.eval_pow]
    field_simp
  · obtain ⟨hM, hPQ⟩ := eval_mul_ne_zero.mp hs
    obtain ⟨hP, hQ⟩ := eval_mul_ne_zero.mp hPQ
    have h := HasDerivative.div hsquare (ha.value s hM) (hb.value s hQ) (div_ne_zero hP hQ)
      (ha.partials s i hM) (hb.partials s i hQ)
    convert h using 1
    simp only [Polynomial.eval_add, Polynomial.eval_neg, Polynomial.eval_mul, Polynomial.eval_pow]
    field_simp
    ring
  · rw [sum_combine, ← ha.chain, ← hb.chain]
    simp only [Polynomial.derivative_mul, Polynomial.derivative_pow]
    simp only [Nat.cast_ofNat, Polynomial.C_ofNat]
    ring

end FractionOn

/-! ## Fractions for expressions -/

section

variable {R : Reading K ℚ} {ρ : Valuation ℚ} {u : Fin n → Atom} {y z : Fin n → ℚ}

/-- An atom with a value is a fraction, whether it is an unknown or not. -/
theorem exists_fractionOn_atom (hu : Function.Injective u) {α : Atom} {v : ℚ}
    (hv : ρ.assign u y α = some v) : ∃ N M G, FractionOn R ρ u y z (α.expr : Expr K) N M G := by
  by_cases hα : ∃ i, u i = α
  · obtain ⟨i, rfl⟩ := hα
    exact ⟨_, _, _, .unknown hu i⟩
  · have hne : ∀ i, u i ≠ α := fun i hi => hα ⟨i, hi⟩
    rw [Valuation.assign_of_ne hne] at hv
    refine ⟨_, _, _, .const (x := v) (fun s => ?_) fun s i => ?_⟩
    · rw [value_atom, Valuation.assign_of_ne hne, hv]
    · have h := HasDerivative.atom (R := R) (ρ := ρ.assign u (y + s • z)) α (u i)
      rwa [if_neg fun hi => hne i hi.symm] at h

/-- **A rational expression is a fraction on every line** that starts where it is defined. -/
theorem exists_fractionOn (hsquare : R.UsualSquares) (hu : Function.Injective u) :
    ∀ {e : Expr K} {v : ℚ}, e.RationalIn u → e.value R.toFunctions (ρ.assign u y) = some v →
      ∃ N M G, FractionOn R ρ u y z e N M G
  | .num m, v, _, hv => by
      obtain ⟨q, hq, _⟩ := value_num_eq_some.mp hv
      exact ⟨_, _, _, .const (fun _ => value_num hq) fun _ _ => ⟨zero, rfl, value_zero⟩⟩
  | .sym n, v, _, hv => exists_fractionOn_atom hu (α := ⟨n, 0⟩) hv
  | .der a, v, he, hv => by
      obtain ⟨i, hi⟩ := he
      rw [hi]
      exact ⟨_, _, _, .unknown hu i⟩
  | .neg a, v, he, hv => by
      obtain ⟨x, hx, _⟩ := value_neg_eq_some.mp hv
      obtain ⟨_, _, _, ha⟩ := exists_fractionOn hsquare hu (e := a) he hx
      exact ⟨_, _, _, ha.neg⟩
  | .add a b, v, he, hv => by
      obtain ⟨x, x', hx, hx', _⟩ := value_add_eq_some.mp hv
      obtain ⟨_, _, _, ha⟩ := exists_fractionOn hsquare hu he.1 hx
      obtain ⟨_, _, _, hb⟩ := exists_fractionOn hsquare hu he.2 hx'
      exact ⟨_, _, _, ha.add hb⟩
  | .sub a b, v, he, hv => by
      obtain ⟨x, x', hx, hx', _⟩ := value_sub_eq_some.mp hv
      obtain ⟨_, _, _, ha⟩ := exists_fractionOn hsquare hu he.1 hx
      obtain ⟨_, _, _, hb⟩ := exists_fractionOn hsquare hu he.2 hx'
      exact ⟨_, _, _, ha.sub hb⟩
  | .mul a b, v, he, hv => by
      obtain ⟨x, x', hx, hx', _⟩ := value_mul_eq_some.mp hv
      obtain ⟨_, _, _, ha⟩ := exists_fractionOn hsquare hu he.1 hx
      obtain ⟨_, _, _, hb⟩ := exists_fractionOn hsquare hu he.2 hx'
      exact ⟨_, _, _, ha.mul hb⟩
  | .div a b, v, he, hv => by
      obtain ⟨x, x', hx, hx', _⟩ := value_div_eq_some.mp hv
      obtain ⟨_, _, _, ha⟩ := exists_fractionOn hsquare hu he.1 hx
      obtain ⟨_, _, _, hb⟩ := exists_fractionOn hsquare hu he.2 hx'
      exact ⟨_, _, _, ha.div hsquare hb⟩

end

/-! ## Proportional polynomials -/

section proportional

variable {P M : Polynomial ℚ} {s : ℚ}

/-- A polynomial with a root, the derivative of which is proportional to that of one without that
root, is zero: its derivative would have the root less often. -/
theorem eq_zero_of_proportional (h : P.derivative * M = P * M.derivative) (hP : P.eval s = 0)
    (hM : M.eval s ≠ 0) : P = 0 := by
  by_contra hne
  have hroot : 0 < P.rootMultiplicity s := (Polynomial.rootMultiplicity_pos hne).mpr hP
  have hM0 : M ≠ 0 := fun h0 => hM (by rw [h0, Polynomial.eval_zero])
  have hP' : P.derivative ≠ 0 := by
    intro hzero
    have hconst := Polynomial.eq_C_of_derivative_eq_zero hzero
    rw [hconst, Polynomial.eval_C] at hP
    rw [hP, map_zero] at hconst
    exact hne hconst
  have hleft : P.derivative * M ≠ 0 := mul_ne_zero hP' hM0
  have hright : P * M.derivative ≠ 0 := h ▸ hleft
  have hcount := congrArg (Polynomial.rootMultiplicity s) h
  rw [Polynomial.rootMultiplicity_mul hleft, Polynomial.rootMultiplicity_mul hright,
    Polynomial.derivative_rootMultiplicity_of_root hP,
    Polynomial.rootMultiplicity_eq_zero hM] at hcount
  omega

/-- **Polynomials with proportional derivatives are proportional.** -/
theorem eval_eq_of_proportional (h : P.derivative * M = P * M.derivative) (hs : M.eval s ≠ 0)
    (t : ℚ) : P.eval t * M.eval s = P.eval s * M.eval t := by
  have hzero : C (M.eval s) * P - C (P.eval s) * M = 0 := by
    refine eq_zero_of_proportional (M := M) (s := s) ?_ ?_ hs
    · simp only [Polynomial.derivative_sub, Polynomial.derivative_C_mul]
      linear_combination C (M.eval s) * h
    · simp only [Polynomial.eval_sub, Polynomial.eval_mul, Polynomial.eval_C]
      ring
  have heval := congrArg (Polynomial.eval t) hzero
  simp only [Polynomial.eval_sub, Polynomial.eval_mul, Polynomial.eval_C,
    Polynomial.eval_zero] at heval
  linear_combination heval

end proportional

/-! ## Partial derivatives without unknowns -/

section accepted

variable {R : Reading K ℚ} {ρ : Valuation ℚ} {u : Fin n → Atom} {e : Expr K} {d : Fin n → Expr K}
  {y z : Fin n → ℚ} {v w : ℚ}

/-- Polynomials that agree where another one is not zero are equal. -/
theorem eq_of_eval_eq {P Q M : Polynomial ℚ} (hM : M ≠ 0)
    (h : ∀ s, M.eval s ≠ 0 → P.eval s = Q.eval s) : P = Q := by
  have hprod : (P - Q) * M = 0 := Polynomial.funext fun s => by
    rw [Polynomial.eval_mul, Polynomial.eval_sub, Polynomial.eval_zero]
    by_cases hs : M.eval s = 0
    · rw [hs, mul_zero]
    · rw [h s hs, sub_self, zero_mul]
  exact sub_eq_zero.mp ((mul_eq_zero.mp hprod).resolve_right hM)

/-- Where the expression is defined, so are its partial derivatives without unknowns. -/
theorem exists_value_partials (hsquare : R.UsualSquares) (hu : Function.Injective u)
    (he : e.RationalIn u) (hd : ∀ i, e.diff (u i).expr = .ok (d i)) (hfree : ∀ i, (d i).FreeOf u)
    (hv : e.value R.toFunctions (ρ.assign u y) = some v) :
    ∃ a : Fin n → ℚ, ∀ i, (d i).value R.toFunctions ρ = some (a i) := by
  obtain ⟨N, M, G, h⟩ := exists_fractionOn (z := 0) hsquare hu he hv
  have hline : y + (0 : ℚ) • (0 : Fin n → ℚ) = y := by rw [smul_zero, add_zero]
  have hM : M.eval 0 ≠ 0 := h.ne_zero 0 (hline.symm ▸ hv)
  refine ⟨fun i => (G i).eval 0 / M.eval 0 ^ 2, fun i => ?_⟩
  rw [← (hfree i).value_assign (y + (0 : ℚ) • (0 : Fin n → ℚ))]
  exact (h.partials 0 i hM).value_diff (hd i)

/-- **The value at the end of a line**, if no partial derivative contains an unknown. -/
theorem value_line (hsquare : R.UsualSquares) (hu : Function.Injective u)
    (he : e.RationalIn u) (hd : ∀ i, e.diff (u i).expr = .ok (d i)) (hfree : ∀ i, (d i).FreeOf u)
    {a : Fin n → ℚ} (ha : ∀ i, (d i).value R.toFunctions ρ = some (a i))
    (hv : e.value R.toFunctions (ρ.assign u y) = some v)
    (hw : e.value R.toFunctions (ρ.assign u z) = some w) :
    w = v + ∑ i, a i * (z i - y i) := by
  obtain ⟨N, M, G, h⟩ := exists_fractionOn (z := z - y) hsquare hu he hv
  have hstart : y + (0 : ℚ) • (z - y) = y := by rw [zero_smul, add_zero]
  have hend : y + (1 : ℚ) • (z - y) = z := by rw [one_smul, add_sub_cancel]
  rw [← hstart] at hv
  rw [← hend] at hw
  have hM0 := h.ne_zero 0 hv
  have hM1 := h.ne_zero 1 hw
  rw [h.value 0 hM0, Option.some_inj] at hv
  rw [h.value 1 hM1, Option.some_inj] at hw
  have hM : M ≠ 0 := fun hzero => hM0 (by rw [hzero, Polynomial.eval_zero])
  -- the partial derivatives do not change on the line
  have hG : ∀ i, G i = C (a i) * M ^ 2 := fun i => eq_of_eval_eq hM fun s hs => by
    have hvalue := (h.partials s i hs).value_diff (hd i)
    rw [(hfree i).value_assign, ha i, Option.some_inj] at hvalue
    rw [Polynomial.eval_mul, Polynomial.eval_C, Polynomial.eval_pow, hvalue,
      div_mul_cancel₀ _ (pow_ne_zero 2 hs)]
  -- less the affine part, the numerator is proportional to the denominator
  set k := ∑ i, a i * (z i - y i) with hk
  have hchain : N.derivative * M - N * M.derivative = C k * M ^ 2 := by
    rw [h.chain, hk, map_sum, Finset.sum_mul]
    exact Finset.sum_congr rfl fun i _ => by
      rw [hG i, Pi.sub_apply, map_mul]
      ring
  have hproportional : (N - C k * X * M).derivative * M = (N - C k * X * M) * M.derivative := by
    simp only [Polynomial.derivative_sub, Polynomial.derivative_mul, Polynomial.derivative_C,
      Polynomial.derivative_X]
    linear_combination hchain
  have heval := eval_eq_of_proportional hproportional hM0 1
  simp only [Polynomial.eval_sub, Polynomial.eval_mul, Polynomial.eval_C, Polynomial.eval_X]
    at heval
  rw [← hv, ← hw]
  field_simp
  linear_combination heval

end accepted

end FlatModel.Symbolic.Expr

namespace FlatModel.Dae

open Symbolic Symbolic.Expr

variable {K : Type} [ExactScalar K] {n : ℕ}

/-- **An accepted residual is affine.**  Take a residual of numbers, symbols and unknowns under the four
operations, the partial derivatives of which by the unknowns contain no unknown.  Wherever it is
defined, it is the sum of the unknowns, each times the value of its partial derivative, and of a number
that is the same for all values of the unknowns.  If the residual is defined where all unknowns are
zero, that number is the value of the simplified residual with zeros for the unknowns, and the right
side of its equation is the opposite. -/
theorem accepted_residual_affine (R : Reading K ℚ) (hsquare : R.UsualSquares) {u : Fin n → Atom}
    (hu : Function.Injective u) {e : Expr K} (he : e.RationalIn u) {d : Fin n → Expr K}
    (hd : ∀ i, e.diff (u i).expr = .ok (d i)) (hfree : ∀ i, (d i).FreeOf u) (ρ : Valuation ℚ)
    {y : Fin n → ℚ} {v : ℚ} (hv : e.value R.toFunctions (ρ.assign u y) = some v) :
    ∃ (r : ℚ) (a : Fin n → ℚ), (∀ i, (d i).value R.toFunctions ρ = some (a i)) ∧
      (∀ z w, e.value R.toFunctions (ρ.assign u z) = some w → w = r + ∑ i, a i * z i) ∧
      ∀ c, e.value R.toFunctions (ρ.assign u 0) = some c →
        (e.subst ((List.ofFn fun i => (u i).expr).map fun x => (x, Expr.zero))).simplify.value
            R.toFunctions ρ = some r ∧
          (rightSide (List.ofFn fun i => (u i).expr) e).value R.toFunctions ρ = some (-r) := by
  obtain ⟨a, ha⟩ := exists_value_partials hsquare hu he hd hfree hv
  have haffine : ∀ z w, e.value R.toFunctions (ρ.assign u z) = some w →
      w = v - ∑ i, a i * y i + ∑ i, a i * z i := by
    intro z w hw
    rw [value_line hsquare hu he hd hfree ha hv hw]
    simp only [mul_sub, Finset.sum_sub_distrib]
    ring
  refine ⟨v - ∑ i, a i * y i, a, ha, haffine, fun c hc => ?_⟩
  have hr : c = v - ∑ i, a i * y i := by
    rw [haffine 0 c hc]
    simp
  have hsubst := (value_subst (replaces_zero R.toFunctions ρ u) hu he.plainLeaves).trans hc
  rw [hr] at hsubst
  exact ⟨value_simplify hsubst, value_simplify (value_neg hsubst)⟩

/-- The residual `k * y + (y + 1) / (y + 1)`, with an unknown in a divisor, where `k` is `3` and `y` is
`2`. -/
theorem accepted_residual_affine_of_divisor :
    let y : Expr (Exact .standard) := .sym "y"
    let k : Expr (Exact .standard) := .sym "k"
    let e := add (mul k y) (div (add y one) (add y one))
    let u : Fin 1 → Atom := fun _ => ⟨"y", 0⟩
    let ρ : Valuation ℚ := fun α => if α = ⟨"k", 0⟩ then some 3 else none
    e.diff y = .ok k ∧ k.FreeOf u ∧
      e.value Reading.standard.toFunctions (ρ.assign u fun _ => 2) = some 7 ∧
      ∃ (r : ℚ) (a : Fin 1 → ℚ), (∀ _ : Fin 1, k.value Reading.standard.toFunctions ρ = some (a 0)) ∧
        7 = r + ∑ i, a i * 2 ∧
          (rightSide [y] e).value Reading.standard.toFunctions ρ = some (-r) := by
  intro y k e u ρ
  have hu : Function.Injective u := Function.injective_of_subsingleton u
  have hdiff : e.diff y = .ok k := by cbv
  have hfree : k.FreeOf u := freeOf_expr (α := ⟨"k", 0⟩) (by decide)
  have hvalue : ∀ x : Fin 1 → ℚ, x 0 + 1 ≠ 0 →
      e.value Reading.standard.toFunctions (ρ.assign u x) = some (3 * x 0 + 1) := by
    intro x hx
    have hy : y.value Reading.standard.toFunctions (ρ.assign u x) = some (x 0) :=
      Valuation.assign_unknown hu 0
    have hk : k.value Reading.standard.toFunctions (ρ.assign u x) = some 3 :=
      Valuation.assign_of_ne (by decide)
    exact value_add (value_mul hk hy) (value_div (value_add hy value_one) (value_add hy value_one)
      (isUnit_iff_ne_zero.mpr hx) (one_mul _))
  have hv : e.value Reading.standard.toFunctions (ρ.assign u fun _ => 2) = some 7 := by
    rw [hvalue _ (by norm_num)]
    norm_num
  have hzero : e.value Reading.standard.toFunctions (ρ.assign u 0) = some 1 := by
    rw [hvalue 0 (by norm_num)]
    norm_num
  have he : e.RationalIn u := ⟨⟨trivial, trivial⟩, ⟨trivial, trivial⟩, trivial, trivial⟩
  obtain ⟨r, a, ha, haffine, hright⟩ := accepted_residual_affine Reading.standard
    Functions.standard_naturalPowers.usualSquares hu he (fun _ => hdiff) (fun _ => hfree) ρ hv
  exact ⟨hdiff, hfree, hv, r, a, fun i => Subsingleton.elim 0 i ▸ ha i, haffine _ _ hv,
    (hright 1 hzero).2⟩

/-- The model of the single equation `y + 2 * y / y - y / y = 5` for an output `y`. -/
def cancelled : Model (Exact .standard) where
  name := "Cancelled"
  states := []
  algebraics := ["y"]
  constants := []
  parameters := []
  inputs := []
  outputs := ["y"]
  stateDefaults := .empty
  constantDefaults := .empty
  parameterDefaults := .empty
  inputDefaults := .empty
  residuals := [.sub (.sub (.add (.sym "y") (.div (.mul (.num (Scalar.ofInt 2)) (.sym "y")) (.sym "y")))
    (.div (.sym "y") (.sym "y"))) (.num (Scalar.ofInt 5))]
  missingDefaults := []

/-- Zeros for unknowns may turn quotients into `0 / 0`, and these cancel against each other.  Then an
accepted residual is solved to a wrong value: here to `5`, while it is zero where `y` is `4` and one
where `y` is `5`. -/
theorem accepted_residual_solved_to_wrong_value :
    let y : Expr (Exact .standard) := .sym "y"
    let u : Fin 1 → Atom := fun _ => ⟨"y", 0⟩
    cancelled.reduce = .ok ⟨[], [.num (Scalar.ofInt 5)]⟩ ∧
      ∀ e ∈ cancelled.residuals, e.RationalIn u ∧ e.diff y = .ok one ∧
        (one : Expr (Exact .standard)).FreeOf u ∧
        (e.subst [(y, zero)]).simplify = .num (Scalar.ofInt (-5)) ∧
        ∀ ρ : Valuation ℚ,
          e.value Reading.standard.toFunctions (ρ.assign u fun _ => 4) = some 0 ∧
            e.value Reading.standard.toFunctions (ρ.assign u fun _ => 5) = some 1 := by
  intro y u
  refine ⟨by cbv, fun e he => ?_⟩
  cases List.mem_singleton.mp he
  have hu : Function.Injective u := Function.injective_of_subsingleton u
  refine ⟨?_, by cbv, freeOf_num _, by cbv, fun ρ => ?_⟩
  · exact ⟨⟨⟨trivial, ⟨trivial, trivial⟩, trivial⟩, trivial, trivial⟩, trivial⟩
  have hvalue : ∀ x : ℚ, x ≠ 0 → (Expr.sub (.sub (.add y (.div (.mul (.num (Scalar.ofInt 2)) y) y))
      (.div y y)) (.num (Scalar.ofInt 5))).value Reading.standard.toFunctions
        (ρ.assign u fun _ => x) = some (x + 2 - 1 - 5) := by
    intro x hx
    have hy : y.value Reading.standard.toFunctions (ρ.assign u fun _ => x) = some x :=
      Valuation.assign_unknown hu 0
    have hunit : IsUnit x := isUnit_iff_ne_zero.mpr hx
    have htwo := value_num (F := Reading.standard.toFunctions) (ρ := ρ.assign u fun _ => x)
      (ExactScalar.toRat?_ofInt (K := Exact .standard) 2)
    have hfive := value_num (F := Reading.standard.toFunctions) (ρ := ρ.assign u fun _ => x)
      (ExactScalar.toRat?_ofInt (K := Exact .standard) 5)
    exact value_sub (value_sub (value_add hy (value_div (value_mul htwo hy) hy hunit rfl))
      (value_div hy hy hunit (one_mul x))) hfive
  constructor
  · rw [hvalue 4 (by norm_num)]
    norm_num
  · rw [hvalue 5 (by norm_num)]
    norm_num

end FlatModel.Dae
