import Mathlib.Algebra.DualNumber
import Mathlib.GroupTheory.GroupAction.Ring
import Mathlib.LinearAlgebra.Pi
import FlatModel.Proofs.DerivativeValue

/-!
# Derivatives and dual numbers

Over dual numbers `a + b ε`, where `ε` squares to zero, an expression carries along how it changes
with its atoms.

* `Valuation.perturb` — every atom moved by a multiple of `ε`.
* `Reading.dual` — powers and calls over dual numbers.  A function with a known derivative moves by
  the value of that derivative.
* `Expr.Moves` — the value of an expression and how it moves when the atoms do, with one rule for each
  operator.
* `Expr.Smooth` — the expressions that can be read over dual numbers.
* `Expr.OuterDefined` — where the derivatives of the called functions are defined.
* `Expr.Gradient` — a linear form that says how an expression moves, and of which all partial
  derivatives are values.
* `Expr.exists_gradient` — every smooth expression has a gradient where it is defined.
-/

namespace FlatModel.Symbolic

open ExactScalar (toRat?)
open TrivSqZeroExt (inl inr)

variable {K : Type} [ExactScalar K]

/-! ## Dual numbers -/

theorem fst_moved (x d : ℚ) : (inl x + inr d : DualNumber ℚ).fst = x := by simp

theorem snd_moved (x d : ℚ) : (inl x + inr d : DualNumber ℚ).snd = d := by simp

/-- The product rule for dual numbers. -/
theorem moved_mul (x d y e : ℚ) :
    (inl x + inr d) * (inl y + inr e) = (inl (x * y) + inr (y * d + x * e) : DualNumber ℚ) := by
  ext
  · rw [TrivSqZeroExt.fst_mul, fst_moved, fst_moved, fst_moved]
  · rw [DualNumber.snd_mul, fst_moved, fst_moved, snd_moved, snd_moved, snd_moved]
    ring

/-- The power rule for dual numbers. -/
theorem moved_pow (x d : ℚ) (n : ℕ) :
    (inl x + inr d) ^ n = (inl (x ^ n) + inr (n * x ^ (n - 1) * d) : DualNumber ℚ) := by
  ext
  · rw [TrivSqZeroExt.fst_pow, fst_moved, fst_moved]
  · rw [TrivSqZeroExt.snd_pow, fst_moved, snd_moved, snd_moved, Nat.pred_eq_sub_one, smul_eq_mul,
      nsmul_eq_mul, mul_assoc]

/-! ## Reading over dual numbers -/

/-- Every atom is moved by a multiple of `ε`. -/
def Valuation.perturb (ρ : Valuation ℚ) (δ : Atom → ℚ) : Valuation (DualNumber ℚ) :=
  fun α => (ρ α).map fun x => inl x + inr (δ α)

/-- The value at `x` of the known derivative of a function. -/
noncomputable def Reading.slope (R : Reading K ℚ) (f : String) (x : ℚ) : Option ℚ :=
  (Expr.outerDerivative? f (.sym "x" : Expr K)).bind fun d => d.value R.toFunctions fun _ => some x

open Classical in
/-- A power of dual numbers with a natural exponent. -/
noncomputable def dualPow (x y : DualNumber ℚ) : Option (DualNumber ℚ) :=
  if y = (y.fst.num.toNat : DualNumber ℚ) then some (x ^ y.fst.num.toNat) else none

/-- A function of a dual number moves by its derivative. -/
noncomputable def Reading.dualCall (R : Reading K ℚ) (f : String) :
    List (DualNumber ℚ) → Option (DualNumber ℚ)
  | [x] => do
      let y ← R.call f [x.fst]
      let s ← R.slope f x.fst
      return inl y + inr (s * x.snd)
  | _ => none

/-- Powers and calls over dual numbers. -/
noncomputable def Reading.dual (R : Reading K ℚ) : Functions (DualNumber ℚ) where
  pow := dualPow
  call := R.dualCall

namespace Reading

variable {R : Reading K ℚ}

/-- Powers of dual numbers with natural exponents are the usual ones. -/
theorem dual_naturalPowers : R.dual.NaturalPowers := by
  intro x n
  have hn : (n : DualNumber ℚ).fst.num.toNat = n := by
    rw [TrivSqZeroExt.fst_natCast]
    simp
  show dualPow x n = _
  rw [dualPow, hn, if_pos rfl]

/-- A function of a dual number has its value and moves by its derivative. -/
theorem dual_call {f : String} {x y s d : ℚ} (hy : R.call f [x] = some y)
    (hs : R.slope f x = some s) :
    R.dual.call f [inl x + inr d] = some (inl y + inr (s * d)) := by
  show R.dualCall f [inl x + inr d] = _
  rw [dualCall, fst_moved, snd_moved, hy, hs]
  rfl

end Reading

namespace Expr

/-! ## Moves -/

/-- The expression has the value `v`, and over dual numbers it moves by `w` when the atoms move by
`δ`. -/
structure Moves (R : Reading K ℚ) (D : Functions (DualNumber ℚ)) (ρ : Valuation ℚ) (δ : Atom → ℚ)
    (e : Expr K) (v w : ℚ) : Prop where
  /-- The value where nothing moves. -/
  value : e.value R.toFunctions ρ = some v
  /-- The value over dual numbers. -/
  dual : e.value D (ρ.perturb δ) = some (inl v + inr w)

namespace Moves

variable {R : Reading K ℚ} {D : Functions (DualNumber ℚ)} {ρ : Valuation ℚ} {δ : Atom → ℚ}
  {a b : Expr K} {x y dx dy : ℚ}

/-- A number does not move. -/
theorem num {m : K} {q : ℚ} (hq : toRat? m = some q) : Moves R D ρ δ (num m) q 0 where
  value := value_num hq
  dual := by
    rw [value_num hq, TrivSqZeroExt.algebraMap_eq_inl, TrivSqZeroExt.inr_zero, add_zero]

/-- An atom moves as it is told. -/
theorem atom {α : Atom} (hα : ρ α = some x) : Moves R D ρ δ α.expr x (δ α) where
  value := (value_atom α).trans hα
  dual := by
    rw [value_atom, Valuation.perturb, hα]
    rfl

theorem neg (ha : Moves R D ρ δ a x dx) : Moves R D ρ δ (neg a) (-x) (-dx) where
  value := value_neg ha.value
  dual := by
    rw [value_neg ha.dual, TrivSqZeroExt.inl_neg, TrivSqZeroExt.inr_neg, neg_add]

theorem add (ha : Moves R D ρ δ a x dx) (hb : Moves R D ρ δ b y dy) :
    Moves R D ρ δ (add a b) (x + y) (dx + dy) where
  value := value_add ha.value hb.value
  dual := by
    rw [value_add ha.dual hb.dual, TrivSqZeroExt.inl_add, TrivSqZeroExt.inr_add,
      add_add_add_comm]

theorem sub (ha : Moves R D ρ δ a x dx) (hb : Moves R D ρ δ b y dy) :
    Moves R D ρ δ (sub a b) (x - y) (dx - dy) where
  value := value_sub ha.value hb.value
  dual := by
    rw [value_sub ha.dual hb.dual, TrivSqZeroExt.inl_sub, TrivSqZeroExt.inr_sub,
      add_sub_add_comm]

/-- The product rule. -/
theorem mul (ha : Moves R D ρ δ a x dx) (hb : Moves R D ρ δ b y dy) :
    Moves R D ρ δ (mul a b) (x * y) (y * dx + x * dy) where
  value := value_mul ha.value hb.value
  dual := by rw [value_mul ha.dual hb.dual, moved_mul]

/-- The quotient rule. -/
theorem div (ha : Moves R D ρ δ a x dx) (hb : Moves R D ρ δ b y dy) (hy0 : y ≠ 0) :
    Moves R D ρ δ (div a b) (x / y) ((y ^ 2)⁻¹ * (y * dx - x * dy)) where
  value := value_div ha.value hb.value (isUnit_iff_ne_zero.mpr hy0) (div_mul_cancel₀ x hy0)
  dual := by
    have hunit : IsUnit (inl y + inr dy : DualNumber ℚ) := by
      rw [TrivSqZeroExt.isUnit_iff_isUnit_fst, fst_moved]
      exact isUnit_iff_ne_zero.mpr hy0
    have hmoved : y * ((y ^ 2)⁻¹ * (y * dx - x * dy)) + x / y * dy = dx := by
      field_simp
      ring
    refine value_div ha.dual hb.dual hunit ?_
    rw [moved_mul, hmoved, div_mul_cancel₀ x hy0]

/-- The power rule, for a natural number as exponent. -/
theorem natPow (hpow : R.NaturalPowers) (hD : D.NaturalPowers) {m : K} {n : ℕ}
    (hm : toRat? m = some (n : ℚ)) (ha : Moves R D ρ δ a x dx) :
    Moves R D ρ δ (pow a (.num m)) (x ^ n) (n * x ^ (n - 1) * dx) where
  value := value_pow ha.value (value_num hm) (hpow x n)
  dual := by
    have hexp : (Expr.num m).value D (ρ.perturb δ) = some (n : DualNumber ℚ) := by
      rw [value_num hm, map_natCast]
    rw [value_pow ha.dual hexp (hD _ n), moved_pow]

/-- A function of one argument moves as its lift to dual numbers says. -/
theorem call {f : String} {w : ℚ} (ha : Moves R D ρ δ a x dx) (hy : R.call f [x] = some y)
    (hw : D.call f [inl x + inr dx] = some (inl y + inr w)) :
    Moves R D ρ δ (call f [a]) y w where
  value := value_call_eq_some.mpr ⟨[x], valueAll_cons_eq_some.mpr ⟨x, [], ha.value, rfl, rfl⟩, hy⟩
  dual := value_call_eq_some.mpr
    ⟨[inl x + inr dx], valueAll_cons_eq_some.mpr ⟨_, [], ha.dual, rfl, rfl⟩, hw⟩

end Moves

/-! ## Smooth expressions -/

/-- An expression of numbers, atoms, the four operations, powers with a literal exponent of at least
one, and functions of one argument with a known derivative. -/
def Smooth : Expr K → Prop
  | .num _ => True
  | .sym _ => True
  | .der a => ∃ α, a.atom? = some α
  | .neg a => a.Smooth
  | .add a b => a.Smooth ∧ b.Smooth
  | .sub a b => a.Smooth ∧ b.Smooth
  | .mul a b => a.Smooth ∧ b.Smooth
  | .div a b => a.Smooth ∧ b.Smooth
  | .pow a b => a.Smooth ∧ ∃ m n, b = .num m ∧ toRat? m = some ((n : ℕ) : ℚ) ∧ 1 ≤ n
  | .call f [a] => a.Smooth ∧ (outerDerivative? f a).isSome
  | .call _ _ => False

/-- The derivatives of all called functions are defined at their arguments. -/
def OuterDefined (R : Reading K ℚ) (ρ : Valuation ℚ) : Expr K → Prop
  | .num _ => True
  | .sym _ => True
  | .der _ => True
  | .neg a => a.OuterDefined R ρ
  | .add a b => a.OuterDefined R ρ ∧ b.OuterDefined R ρ
  | .sub a b => a.OuterDefined R ρ ∧ b.OuterDefined R ρ
  | .mul a b => a.OuterDefined R ρ ∧ b.OuterDefined R ρ
  | .div a b => a.OuterDefined R ρ ∧ b.OuterDefined R ρ
  | .pow a b => a.OuterDefined R ρ ∧ b.OuterDefined R ρ
  | .call f [a] => a.OuterDefined R ρ ∧
      ∀ outer, outerDerivative? f a = some outer → ∃ s, outer.value R.toFunctions ρ = some s
  | .call _ _ => True

variable {R : Reading K ℚ} {ρ : Valuation ℚ} {a b : Expr K} {x y v : ℚ}

/-- The derivative of a known function depends on the value of the argument only. -/
theorem value_outerDerivatives (hx : a.value R.toFunctions ρ = some x) :
    ∀ p ∈ outerDerivatives (K := K), (p.2 a).value R.toFunctions ρ =
      (p.2 (.sym "x")).value R.toFunctions fun _ => some x := by
  simp [outerDerivatives, call1, square, value, valueAll, hx]

/-- The slope of a known function is the value of its derivative. -/
theorem slope_of_outerDerivative? {f : String} {outer : Expr K}
    (hf : outerDerivative? f a = some outer) (hx : a.value R.toFunctions ρ = some x) :
    R.slope f x = outer.value R.toFunctions ρ := by
  obtain ⟨rule, hrule, rfl⟩ := Option.map_eq_some_iff.mp hf
  obtain ⟨before, after, hmem, _⟩ := List.lookup_eq_some_iff.mp hrule
  have hvalue := value_outerDerivatives (R := R) hx (f, rule) (by rw [hmem]; simp)
  rw [hvalue, Reading.slope, outerDerivative?, hrule]
  rfl

/-! ## Gradients -/

/-- The expression has the value `v`, it moves by the linear form `L` of the moves of the atoms, and
the values of `L` at the unit moves are those of the partial derivatives. -/
structure Gradient (R : Reading K ℚ) (ρ : Valuation ℚ) (e : Expr K) (v : ℚ)
    (L : (Atom → ℚ) →ₗ[ℚ] ℚ) : Prop where
  /-- The value where nothing moves. -/
  value : e.value R.toFunctions ρ = some v
  /-- The value over dual numbers. -/
  dual : ∀ δ, e.value R.dual (ρ.perturb δ) = some (inl v + inr (L δ))
  /-- The partial derivatives. -/
  partials : ∀ α : Atom, HasDerivative R ρ (unitLeaf α.expr) e (L (Pi.single α 1))

namespace Gradient

variable {La Lb : (Atom → ℚ) →ₗ[ℚ] ℚ}

/-- How the expression moves when the atoms move by `δ`. -/
theorem moves (ha : Gradient R ρ a x La) (δ : Atom → ℚ) : Moves R R.dual ρ δ a x (La δ) :=
  ⟨ha.value, ha.dual δ⟩

/-- A number does not move. -/
theorem num {m : K} {q : ℚ} (hq : toRat? m = some q) : Gradient R ρ (num m) q 0 where
  value := value_num hq
  dual _ := (Moves.num (R := R) hq).dual
  partials _ := ⟨zero, rfl, value_zero⟩

/-- An atom moves as it is told. -/
theorem atom {α : Atom} (hα : ρ α = some x) : Gradient R ρ α.expr x (LinearMap.proj α) where
  value := (value_atom α).trans hα
  dual _ := (Moves.atom (R := R) hα).dual
  partials β := by
    rw [LinearMap.proj_apply, Pi.single_apply]
    exact .atom α β

theorem neg (ha : Gradient R ρ a x La) : Gradient R ρ (neg a) (-x) (-La) where
  value := value_neg ha.value
  dual δ := (ha.moves δ).neg.dual
  partials α := (ha.partials α).neg

theorem add (ha : Gradient R ρ a x La) (hb : Gradient R ρ b y Lb) :
    Gradient R ρ (add a b) (x + y) (La + Lb) where
  value := value_add ha.value hb.value
  dual δ := ((ha.moves δ).add (hb.moves δ)).dual
  partials α := (ha.partials α).add (hb.partials α)

theorem sub (ha : Gradient R ρ a x La) (hb : Gradient R ρ b y Lb) :
    Gradient R ρ (sub a b) (x - y) (La - Lb) where
  value := value_sub ha.value hb.value
  dual δ := ((ha.moves δ).sub (hb.moves δ)).dual
  partials α := (ha.partials α).sub (hb.partials α)

/-- The product rule. -/
theorem mul (ha : Gradient R ρ a x La) (hb : Gradient R ρ b y Lb) :
    Gradient R ρ (mul a b) (x * y) (y • La + x • Lb) where
  value := value_mul ha.value hb.value
  dual δ := ((ha.moves δ).mul (hb.moves δ)).dual
  partials α := by
    have h := HasDerivative.mul ha.value hb.value (ha.partials α) (hb.partials α)
    rwa [mul_comm (La _) y] at h

/-- The quotient rule. -/
theorem div (hpow : R.NaturalPowers) (ha : Gradient R ρ a x La) (hb : Gradient R ρ b y Lb)
    (hy0 : y ≠ 0) :
    Gradient R ρ (div a b) (x / y) ((y ^ 2)⁻¹ • (y • La - x • Lb)) where
  value := value_div ha.value hb.value (isUnit_iff_ne_zero.mpr hy0) (div_mul_cancel₀ x hy0)
  dual δ := ((ha.moves δ).div (hb.moves δ) hy0).dual
  partials α := by
    have h := HasDerivative.div hpow.usualSquares ha.value hb.value hy0 (ha.partials α) (hb.partials α)
    have heq : ((y ^ 2)⁻¹ • (y • La - x • Lb)) (Pi.single α 1) =
        (La (Pi.single α 1) * y - x * Lb (Pi.single α 1)) / y ^ 2 := by
      rw [LinearMap.smul_apply, LinearMap.sub_apply, LinearMap.smul_apply, LinearMap.smul_apply,
        smul_eq_mul, smul_eq_mul, smul_eq_mul, mul_comm y, div_eq_inv_mul]
    rwa [heq]

/-- The power rule, for a natural number as exponent. -/
theorem natPow (hpow : R.NaturalPowers) {m : K} {n : ℕ} (hm : toRat? m = some (n : ℚ))
    (hn : 1 ≤ n) (ha : Gradient R ρ a x La) :
    Gradient R ρ (pow a (.num m)) (x ^ n) ((n * x ^ (n - 1)) • La) where
  value := value_pow ha.value (value_num hm) (hpow x n)
  dual δ := ((ha.moves δ).natPow hpow Reading.dual_naturalPowers hm).dual
  partials α := HasDerivative.natPow hpow hm hn ha.value (ha.partials α)

/-- The chain rule, for the functions with a known derivative. -/
theorem outerCall {f : String} {outer : Expr K} {s : ℚ} (hf : outerDerivative? f a = some outer)
    (hs : outer.value R.toFunctions ρ = some s) (hy : R.call f [x] = some y)
    (ha : Gradient R ρ a x La) : Gradient R ρ (call f [a]) y (s • La) where
  value := value_call_eq_some.mpr ⟨[x], valueAll_cons_eq_some.mpr ⟨x, [], ha.value, rfl, rfl⟩, hy⟩
  dual δ := ((ha.moves δ).call hy
    (Reading.dual_call hy ((slope_of_outerDerivative? hf ha.value).trans hs))).dual
  partials α := HasDerivative.outerCall hf hs (ha.partials α)

end Gradient

/-- **Every smooth expression has a gradient where it and the derivatives of the called functions
are defined.** -/
theorem exists_gradient (hpow : R.NaturalPowers) : ∀ {e : Expr K} {v : ℚ}, e.Smooth →
    e.OuterDefined R ρ → e.value R.toFunctions ρ = some v → ∃ L, Gradient R ρ e v L
  | .num m, v, _, _, hv => by
      obtain ⟨q, hq, rfl⟩ := value_num_eq_some.mp hv
      exact ⟨0, .num hq⟩
  | .sym n, v, _, _, hv => ⟨_, .atom (α := ⟨n, 0⟩) hv⟩
  | .der a, v, ⟨α, hα⟩, _, hv => by
      have hder : (Expr.der a).atom? = some α.der := congrArg (Option.map Atom.der) hα
      rw [eq_expr_of_atom? hder, value_atom] at hv
      rw [eq_expr_of_atom? hder]
      exact ⟨_, .atom hv⟩
  | .neg a, v, hs, ho, hv => by
      obtain ⟨x, hx, rfl⟩ := value_neg_eq_some.mp hv
      obtain ⟨La, ha⟩ := exists_gradient hpow (e := a) hs ho hx
      exact ⟨_, ha.neg⟩
  | .add a b, v, hs, ho, hv => by
      obtain ⟨x, y, hx, hy, rfl⟩ := value_add_eq_some.mp hv
      obtain ⟨La, ha⟩ := exists_gradient hpow hs.1 ho.1 hx
      obtain ⟨Lb, hb⟩ := exists_gradient hpow hs.2 ho.2 hy
      exact ⟨_, ha.add hb⟩
  | .sub a b, v, hs, ho, hv => by
      obtain ⟨x, y, hx, hy, rfl⟩ := value_sub_eq_some.mp hv
      obtain ⟨La, ha⟩ := exists_gradient hpow hs.1 ho.1 hx
      obtain ⟨Lb, hb⟩ := exists_gradient hpow hs.2 ho.2 hy
      exact ⟨_, ha.sub hb⟩
  | .mul a b, v, hs, ho, hv => by
      obtain ⟨x, y, hx, hy, rfl⟩ := value_mul_eq_some.mp hv
      obtain ⟨La, ha⟩ := exists_gradient hpow hs.1 ho.1 hx
      obtain ⟨Lb, hb⟩ := exists_gradient hpow hs.2 ho.2 hy
      exact ⟨_, ha.mul hb⟩
  | .div a b, v, hs, ho, hv => by
      obtain ⟨x, y, hx, hy, hu, hv⟩ := value_div_eq_some.mp hv
      obtain ⟨La, ha⟩ := exists_gradient hpow hs.1 ho.1 hx
      obtain ⟨Lb, hb⟩ := exists_gradient hpow hs.2 ho.2 hy
      rw [eq_div_of_mul_eq hu.ne_zero hv]
      exact ⟨_, ha.div hpow hb hu.ne_zero⟩
  | .pow a b, v, ⟨hs, m, n, hb, hm, hn⟩, ho, hv => by
      subst hb
      obtain ⟨x, y, hx, hy, hv⟩ := value_pow_eq_some.mp hv
      obtain ⟨La, ha⟩ := exists_gradient hpow hs ho.1 hx
      have hgrad := ha.natPow hpow hm hn
      rw [Option.some_inj.mp ((value_pow hx hy hv).symm.trans hgrad.value)]
      exact ⟨_, hgrad⟩
  | .call f [a], v, hs, ho, hv => by
      obtain ⟨xs, hxs, hv⟩ := value_call_eq_some.mp hv
      obtain ⟨x, ys, hx, hys, rfl⟩ := valueAll_cons_eq_some.mp hxs
      cases hys
      obtain ⟨outer, houter⟩ := Option.isSome_iff_exists.mp hs.2
      obtain ⟨s, hslope⟩ := ho.2 outer houter
      obtain ⟨La, ha⟩ := exists_gradient hpow hs.1 ho.1 hx
      exact ⟨_, ha.outerCall houter hslope hv⟩

end Expr

end FlatModel.Symbolic
