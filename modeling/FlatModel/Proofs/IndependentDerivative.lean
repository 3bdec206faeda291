import FlatModel.Proofs.DerivativeErrors
import FlatModel.Proofs.Unknowns

/-!
# Derivatives of what does not vary

An expression that does not depend on a variable has the number zero for its derivative, by its form
and not only by its value.

* `Expr.StaticLeaf`, `Expr.IsStatic` — numbers and symbols that time does not move, and expressions of
  these.
* `Expr.exists_call_of_derivative_error` — what cannot be differentiated is a call that varies.
* `Expr.derivatives_of_independent` — both of the partial derivative and of the time derivative.
-/

namespace FlatModel.Symbolic.Expr

/-! ## Expressions at rest -/

section static

variable {K : Type} {dynamic : String → Bool}

/-- A leaf that time does not move: a number, or a symbol that is not dynamic. -/
def StaticLeaf (dynamic : String → Bool) : Expr K → Prop
  | .num _ => True
  | .sym n => dynamic n = false
  | _ => False

/-- The expression holds no dynamic symbol and no time derivative. -/
def IsStatic (dynamic : String → Bool) (e : Expr K) : Prop := e.AllLeaves (StaticLeaf dynamic)

/-- A leaf at rest does not vary with time. -/
theorem StaticLeaf.constantLeaf [ExactScalar K] : ∀ {l : Expr K}, StaticLeaf dynamic l →
    ConstantLeaf (timeLeaf dynamic) l
  | .num _, _ => trivial
  | .sym n, h => by
      have h : dynamic n = false := h
      show (timeLeaf dynamic (.sym n)).simplify.IsZeroNumber
      rw [timeLeaf, h]
      exact isZeroNumber_zero

end static

variable {K : Type} [ExactScalar K]

/-! ## What cannot be differentiated -/

/-- **Differentiation fails only at a call that varies.**  At a call all of whose arguments are
constant, their derivatives are zero, and the call is differentiated whatever its function is. -/
theorem exists_call_of_derivative_error (hsq : SquaresFold K) {leaf : Expr K → Expr K}
    {err : SymbolicError} {e : Expr K} (hf : e.FiniteNumbers) (hd : e.NoZeroDivisor)
    (h : e.derivative leaf = .error err) : ∃ f args, err = .notDifferentiable f ∧
      e.HasCall f args ∧ ¬ AllLeavesOf (ConstantLeaf leaf) args := by
  obtain ⟨f, args, dargs, herr, hcall, hdargs, d, hmem, hd0⟩ := exists_call_of_error h
  refine ⟨f, args, herr, hcall, fun hconst => ?_⟩
  obtain ⟨ds, hds, hzero⟩ := derivativeAll_of_constant hsq (hcall.allLeaves hf)
    (hcall.allDivisors hd) hconst
  rw [hdargs] at hds
  cases hds
  rw [(hzero d hmem).isZero] at hd0
  cases hd0

/-! ## The two derivatives -/

variable {e : Expr K}

/-- The simplified derivative of an expression with constant leaves is a number that counts as
zero. -/
theorem exists_zero_of_constant (hsq : SquaresFold K) {leaf : Expr K → Expr K}
    (hf : e.FiniteNumbers) (hd : e.NoZeroDivisor) (hconst : e.AllLeaves (ConstantLeaf leaf)) :
    ∃ n, (do let d ← e.derivative leaf; return d.simplify) = Except.ok (num n) ∧
      Scalar.isZero n = true := by
  obtain ⟨d, hderivative, n, hn, hn0⟩ := derivative_of_constant hsq hf hd hconst
  refine ⟨n, ?_, (ExactScalar.isZero_iff hn0).mpr rfl⟩
  rw [hderivative, ← hn]
  rfl

/-- **What does not vary has the derivative zero.**  Let all numbers be finite and no divisor simplify
to zero.  If `var` does not occur in the expression, the partial derivative by it is a number that
counts as zero; if the expression is at rest, so is the time derivative.  A derivative that does not
exist is the fault of a call that varies, with the variable or with time. -/
theorem derivatives_of_independent (hsq : SquaresFold K) (hf : e.FiniteNumbers)
    (hd : e.NoZeroDivisor) :
    (∀ var : Expr K,
      (e.contains var = false → ∃ n, e.diff var = .ok (num n) ∧ Scalar.isZero n = true) ∧
        ∀ err, e.diff var = .error err → ∃ f args, err = .notDifferentiable f ∧
          e.HasCall f args ∧ anyContains args var = true) ∧
    ∀ dynamic : String → Bool,
      (e.IsStatic dynamic →
        ∃ n, e.timeDerivative dynamic = .ok (num n) ∧ Scalar.isZero n = true) ∧
        ∀ err, e.timeDerivative dynamic = .error err → ∃ f args, err = .notDifferentiable f ∧
          e.HasCall f args ∧ ∃ a ∈ args, ¬ a.IsStatic dynamic := by
  refine ⟨fun var => ⟨fun hvar => ?_, fun err herr => ?_⟩,
    fun dynamic => ⟨fun hstatic => ?_, fun err herr => ?_⟩⟩
  · exact exists_zero_of_constant hsq hf hd
      ((allLeaves_of_contains hvar).imp fun _ => constantLeaf_of_ne)
  · obtain ⟨f, args, hname, hcall, hvaries⟩ :=
      exists_call_of_derivative_error hsq hf hd (derivative_eq_error herr)
    refine ⟨f, args, hname, hcall, ?_⟩
    by_contra hfree
    rw [Bool.not_eq_true] at hfree
    exact hvaries ((allLeavesOf_of_anyContains hfree).imp fun _ => constantLeaf_of_ne)
  · exact exists_zero_of_constant hsq hf hd (hstatic.imp fun _ => StaticLeaf.constantLeaf)
  · obtain ⟨f, args, hname, hcall, hvaries⟩ :=
      exists_call_of_derivative_error hsq hf hd (derivative_eq_error herr)
    refine ⟨f, args, hname, hcall, ?_⟩
    by_contra hrest
    push Not at hrest
    exact hvaries ((allLeavesOf_iff.mpr hrest).imp fun _ => StaticLeaf.constantLeaf)

/-- `k^2 * table(y, 3 / (y - 1))` stands still when `x` moves.  It has no derivative by `y`, because
of the call that `y` is in. -/
theorem derivatives_of_independent_table :
    let y : Expr (Exact .standard) := .sym "y"
    let args := [y, div (num ⟨some 3⟩) (sub y one)]
    let e := mul (square (.sym "k")) (.call "table" args)
    (∃ n, e.diff (.sym "x") = .ok (num n) ∧ Scalar.isZero n = true) ∧
      (∃ n, e.timeDerivative (· == "x") = .ok (num n) ∧ Scalar.isZero n = true) ∧
        ∃ f as, SymbolicError.notDifferentiable "table" = .notDifferentiable f ∧ e.HasCall f as ∧
          anyContains as y = true := by
  intro y args e
  have hsq : SquaresFold (Exact .standard) :=
    squaresFold_of_naturalPowers (R := Reading.standard) Functions.standard_naturalPowers
  have hf : e.FiniteNumbers :=
    ⟨⟨trivial, 2, rfl⟩, trivial, ⟨⟨3, rfl⟩, trivial, 1, rfl⟩, trivial⟩
  have hd : e.NoZeroDivisor := ⟨⟨trivial, trivial⟩, trivial, ⟨by cbv, trivial, trivial, trivial⟩, trivial⟩
  have hk : ("k" == "x") = false := by decide
  have hy : ("y" == "x") = false := by decide
  obtain ⟨hpartial, htime⟩ := derivatives_of_independent hsq hf hd
  exact ⟨(hpartial (.sym "x")).1 (by cbv),
    (htime (· == "x")).1 ⟨⟨hk, trivial⟩, hy, ⟨trivial, hy, trivial⟩, trivial⟩,
    (hpartial y).2 _ (by cbv)⟩

end FlatModel.Symbolic.Expr
