import Mathlib.Tactic.Ring
import FlatModel.Symbolic.Derivative
import FlatModel.Proofs.ExactNumber
import FlatModel.Proofs.Leaves

/-!
# Derivatives of constant expressions

An expression none of whose leaves varies has a derivative that simplifies to the number zero.  It
does so by its form alone, whatever its powers and calls are, and without regard to any values: the
products with zero that the rules of differentiation leave behind all vanish.

* `Expr.IsZeroNumber` — a number that stands for zero.
* `Expr.FiniteNumbers` — all numbers of an expression stand for rationals.
* `SquaresFold` — a square of a number folds to the product of the number with itself, if it folds.
* `Expr.derivative_of_constant` — the derivative of an expression with constant leaves, if no
  divisor simplifies to zero.  A zero divisor would leave a quotient of zero by zero.
-/

namespace FlatModel.Symbolic

open ExactScalar (toRat?)

/-- A square that folds is the product of the number with itself. -/
def SquaresFold (K : Type) [ExactScalar K] : Prop :=
  ∀ {x : K} {q r : ℚ}, toRat? x = some q → toRat? (Scalar.pow x Scalar.two) = some r → r = q * q

namespace Expr

variable {K : Type} [ExactScalar K] {a b : Expr K}

/-! ## Finite numbers -/

/-- A leaf that is no number, or a finite one. -/
def FiniteLeaf : Expr K → Prop
  | .num x => ∃ q, toRat? x = some q
  | _ => True

/-- All numbers of the expression are finite. -/
def FiniteNumbers (e : Expr K) : Prop := e.AllLeaves FiniteLeaf

/-- Finite numbers fold to finite numbers. -/
theorem foldClosed_finiteLeaf : FoldClosed (FiniteLeaf (K := K)) where
  zero := ⟨0, ExactScalar.toRat?_zero⟩
  one := ⟨1, ExactScalar.toRat?_one⟩
  two := ⟨2, ExactScalar.toRat?_two⟩
  neg := fun ⟨_, hp⟩ => ⟨_, ExactScalar.toRat?_neg hp⟩
  add := fun ⟨_, hp⟩ ⟨_, hq⟩ => ⟨_, ExactScalar.toRat?_add hp hq⟩
  sub := fun ⟨_, hp⟩ ⟨_, hq⟩ => ⟨_, ExactScalar.toRat?_sub hp hq⟩
  mul := fun ⟨_, hp⟩ ⟨_, hq⟩ => ⟨_, ExactScalar.toRat?_mul hp hq⟩
  div := fun ⟨_, hp⟩ ⟨_, hq⟩ hy =>
    ⟨_, ExactScalar.toRat?_div hp hq fun h0 => hy ((ExactScalar.isZero_iff hq).mpr h0)⟩
  finite := fun h => ExactScalar.isFinite_iff.mp h
  der := fun _ => trivial

/-- Simplification keeps numbers finite. -/
theorem FiniteNumbers.simplify {e : Expr K} (he : e.FiniteNumbers) : e.simplify.FiniteNumbers :=
  AllLeaves.simplify foldClosed_finiteLeaf he

/-! ## Zero as a number -/

/-- A number that stands for zero. -/
def IsZeroNumber (e : Expr K) : Prop := ∃ n, e = num n ∧ toRat? n = some 0

/-- The number zero stands for zero. -/
theorem isZeroNumber_zero : (zero : Expr K).IsZeroNumber := ⟨_, rfl, ExactScalar.toRat?_zero⟩

/-- What stands for zero counts as zero. -/
theorem IsZeroNumber.isZero (h : a.IsZeroNumber) : a.isZero = true := by
  obtain ⟨n, rfl, hn⟩ := h
  exact (ExactScalar.isZero_iff hn).mpr rfl

/-- A finite number that counts as zero stands for zero. -/
theorem FiniteNumbers.isZeroNumber (ha : a.FiniteNumbers) (h : a.isZero = true) :
    a.IsZeroNumber := by
  cases a with
  | num n =>
      obtain ⟨q, hq⟩ : ∃ q, toRat? n = some q := ha
      exact ⟨n, rfl, (ExactScalar.isZero_iff hq).mp h ▸ hq⟩
  | _ => cases h

/-- What stands for zero is finite. -/
theorem IsZeroNumber.finiteNumbers (h : a.IsZeroNumber) : a.FiniteNumbers := by
  obtain ⟨n, rfl, hn⟩ := h
  exact ⟨0, hn⟩

theorem IsZeroNumber.simplifyNeg (h : a.IsZeroNumber) : (simplifyNeg a).IsZeroNumber := by
  obtain ⟨n, rfl, hn⟩ := h
  exact ⟨_, rfl, by simpa using ExactScalar.toRat?_neg hn⟩

theorem IsZeroNumber.simplifyAdd (ha : a.IsZeroNumber) (hb : b.IsZeroNumber) :
    (simplifyAdd a b).IsZeroNumber := by
  obtain ⟨m, rfl, hm⟩ := ha
  obtain ⟨n, rfl, hn⟩ := hb
  rw [Expr.simplifyAdd]
  exact ⟨_, rfl, by simpa using ExactScalar.toRat?_add hm hn⟩

theorem IsZeroNumber.simplifySub (ha : a.IsZeroNumber) (hb : b.IsZeroNumber) :
    (simplifySub a b).IsZeroNumber := by
  obtain ⟨m, rfl, hm⟩ := ha
  obtain ⟨n, rfl, hn⟩ := hb
  rw [Expr.simplifySub]
  exact ⟨_, rfl, by simpa using ExactScalar.toRat?_sub hm hn⟩

/-- A product of which one factor stands for zero is zero, if the other one has finite numbers. -/
theorem isZeroNumber_simplifyMul (ha : a.FiniteNumbers) (hb : b.FiniteNumbers)
    (h : a.IsZeroNumber ∨ b.IsZeroNumber) : (simplifyMul a b).IsZeroNumber := by
  have hz : (a.isZero || b.isZero) = true :=
    Bool.or_eq_true_iff.mpr (h.imp IsZeroNumber.isZero IsZeroNumber.isZero)
  unfold simplifyMul
  split
  · rename_i m n
    obtain ⟨p, hp⟩ : ∃ q, toRat? m = some q := ha
    obtain ⟨q, hq⟩ : ∃ q, toRat? n = some q := hb
    refine ⟨_, rfl, ?_⟩
    rw [ExactScalar.toRat?_mul hp hq]
    rcases Bool.or_eq_true_iff.mp hz with hz | hz
    · rw [(ExactScalar.isZero_iff hp).mp hz, zero_mul]
    · rw [(ExactScalar.isZero_iff hq).mp hz, mul_zero]
  · rw [if_pos hz]
    exact isZeroNumber_zero

/-- Zero divided by what is not the number zero is zero, if the divisor has finite numbers. -/
theorem IsZeroNumber.simplifyDiv (ha : a.IsZeroNumber) (hb : b.FiniteNumbers)
    (hb0 : b.isZero = false) : (simplifyDiv a b).IsZeroNumber := by
  unfold Expr.simplifyDiv
  split
  · rename_i m n
    obtain ⟨k, hk, hk0⟩ := ha
    cases hk
    obtain ⟨q, hq⟩ : ∃ q, toRat? n = some q := hb
    have hn : Scalar.isZero n = false := hb0
    have hq0 : q ≠ 0 := (ExactScalar.isZero_eq_false_iff hq).mp hn
    rw [hn, if_neg Bool.false_ne_true]
    exact ⟨_, rfl, by rw [ExactScalar.toRat?_div hk0 hq hq0, zero_div]⟩
  · rw [if_pos (by rw [ha.isZero, hb0]; rfl)]
    exact isZeroNumber_zero

/-- The square of a number that is not zero does not fold to zero. -/
theorem isZero_of_foldedPow?_two (hsq : SquaresFold K) (hb : b.FiniteNumbers)
    (hb0 : b.isZero = false) {n : K} (h : foldedPow? b two = some n) :
    Scalar.isZero n = false := by
  unfold foldedPow? at h
  split at h
  · rename_i m k htwo
    cases htwo
    dsimp only at h
    split at h
    · rename_i hfin
      cases h
      obtain ⟨q, hq⟩ : ∃ q, toRat? m = some q := hb
      obtain ⟨r, hr⟩ := ExactScalar.isFinite_iff.mp hfin
      have hq0 : q ≠ 0 := (ExactScalar.isZero_eq_false_iff hq).mp hb0
      have hr0 : r ≠ 0 := hsq hq hr ▸ mul_ne_zero hq0 hq0
      exact (ExactScalar.isZero_eq_false_iff hr).mpr hr0
    · cases h
  · cases h

/-- The square of what is not the number zero is not the number zero. -/
theorem isZero_simplifyPow_two (hsq : SquaresFold K) (hb : b.FiniteNumbers)
    (hb0 : b.isZero = false) : (simplifyPow b two).isZero = false := by
  have h2 : (two : Expr K).isZero = false :=
    (ExactScalar.isZero_eq_false_iff ExactScalar.toRat?_two).mpr two_ne_zero
  have h1 : (one : Expr K).isZero = false :=
    (ExactScalar.isZero_eq_false_iff ExactScalar.toRat?_one).mpr one_ne_zero
  unfold simplifyPow
  split
  · rename_i n hn
    exact isZero_of_foldedPow?_two hsq hb hb0 hn
  · rw [h2, if_neg Bool.false_ne_true]
    split_ifs
    · exact hb0
    · exact h1
    · rfl

/-! ## Differentiation -/

/-- A leaf that does not vary: a number, or an atom with derivative zero. -/
def ConstantLeaf (leaf : Expr K → Expr K) : Expr K → Prop
  | .num _ => True
  | l => (leaf l).simplify.IsZeroNumber

/-- No divisor of the expression simplifies to the number zero. -/
def NoZeroDivisor (e : Expr K) : Prop := e.AllDivisors fun b => b.simplify.isZero = false

mutual

/-- **The derivative of an expression with constant leaves simplifies to the number zero.** -/
theorem derivative_of_constant (hsq : SquaresFold K) {leaf : Expr K → Expr K} :
    ∀ {e : Expr K}, e.FiniteNumbers → e.NoZeroDivisor → e.AllLeaves (ConstantLeaf leaf) →
      ∃ d, e.derivative leaf = .ok d ∧ d.simplify.IsZeroNumber
  | .num _, _, _, _ => ⟨zero, rfl, isZeroNumber_zero⟩
  | .sym n, _, _, hl => ⟨leaf (.sym n), rfl, hl⟩
  | .der a, _, _, hl => ⟨leaf (.der a), rfl, hl⟩
  | .neg a, hf, hd, hl => by
      obtain ⟨da, ha, hda⟩ := derivative_of_constant hsq (e := a) hf hd hl
      exact ⟨neg da, by rw [derivative, ha]; rfl, hda.simplifyNeg⟩
  | .add a b, hf, hd, hl => by
      obtain ⟨da, ha, hda⟩ := derivative_of_constant hsq (e := a) hf.1 hd.1 hl.1
      obtain ⟨db, hb, hdb⟩ := derivative_of_constant hsq (e := b) hf.2 hd.2 hl.2
      exact ⟨add da db, by rw [derivative, ha, hb]; rfl, hda.simplifyAdd hdb⟩
  | .sub a b, hf, hd, hl => by
      obtain ⟨da, ha, hda⟩ := derivative_of_constant hsq (e := a) hf.1 hd.1 hl.1
      obtain ⟨db, hb, hdb⟩ := derivative_of_constant hsq (e := b) hf.2 hd.2 hl.2
      exact ⟨sub da db, by rw [derivative, ha, hb]; rfl, hda.simplifySub hdb⟩
  | .mul a b, hf, hd, hl => by
      obtain ⟨da, ha, hda⟩ := derivative_of_constant hsq (e := a) hf.1 hd.1 hl.1
      obtain ⟨db, hb, hdb⟩ := derivative_of_constant hsq (e := b) hf.2 hd.2 hl.2
      have hfa : a.FiniteNumbers := hf.1
      have hfb : b.FiniteNumbers := hf.2
      have hleft := isZeroNumber_simplifyMul hda.finiteNumbers hfb.simplify (.inl hda)
      have hright := isZeroNumber_simplifyMul hfa.simplify hdb.finiteNumbers (.inr hdb)
      exact ⟨add (mul da b) (mul a db), by rw [derivative, ha, hb]; rfl,
        hleft.simplifyAdd hright⟩
  | .div a b, hf, hd, hl => by
      obtain ⟨da, ha, hda⟩ := derivative_of_constant hsq (e := a) hf.1 hd.2.1 hl.1
      obtain ⟨db, hb, hdb⟩ := derivative_of_constant hsq (e := b) hf.2 hd.2.2 hl.2
      have hfa : a.FiniteNumbers := hf.1
      have hfb : b.FiniteNumbers := hf.2
      have hleft := isZeroNumber_simplifyMul hda.finiteNumbers hfb.simplify (.inl hda)
      have hright := isZeroNumber_simplifyMul hfa.simplify hdb.finiteNumbers (.inr hdb)
      have hfsq : (square b).FiniteNumbers := ⟨hfb, 2, ExactScalar.toRat?_two⟩
      exact ⟨div (sub (mul da b) (mul a db)) (square b), by rw [derivative, ha, hb]; rfl,
        (hleft.simplifySub hright).simplifyDiv hfsq.simplify
          (isZero_simplifyPow_two hsq hfb.simplify hd.1)⟩
  | .pow a b, hf, hd, hl => by
      obtain ⟨da, ha, hda⟩ := derivative_of_constant hsq (e := a) hf.1 hd.1 hl.1
      obtain ⟨db, hb, hdb⟩ := derivative_of_constant hsq (e := b) hf.2 hd.2 hl.2
      have hff : (mul b (pow a (sub b one))).FiniteNumbers :=
        ⟨hf.2, hf.1, hf.2, 1, ExactScalar.toRat?_one⟩
      refine ⟨mul (mul b (pow a (sub b one))) da, ?_,
        isZeroNumber_simplifyMul hff.simplify hda.finiteNumbers (.inr hda)⟩
      rw [derivative, ha, hb]
      exact congrArg Except.ok (if_pos hdb.isZero)
  | .call f args, hf, hd, hl => by
      obtain ⟨ds, hds, hzero⟩ := derivativeAll_of_constant hsq (s := args) hf hd hl
      refine ⟨zero, ?_, isZeroNumber_zero⟩
      rw [derivative, hds]
      exact if_pos (List.all_eq_true.mpr fun d hd => (hzero d hd).isZero)

/-- The derivatives of expressions with constant leaves simplify to the number zero. -/
theorem derivativeAll_of_constant (hsq : SquaresFold K) {leaf : Expr K → Expr K} :
    ∀ {s : List (Expr K)}, AllLeavesOf FiniteLeaf s →
      AllDivisorsOf (fun b => b.simplify.isZero = false) s → AllLeavesOf (ConstantLeaf leaf) s →
        ∃ ds, derivativeAll leaf s = .ok ds ∧ ∀ d ∈ ds, d.IsZeroNumber
  | [], _, _, _ => ⟨[], rfl, fun _ h => nomatch h⟩
  | a :: rest, hf, hd, hl => by
      obtain ⟨da, ha, hda⟩ := derivative_of_constant hsq (e := a) hf.1 hd.1 hl.1
      obtain ⟨ds, hds, hzero⟩ := derivativeAll_of_constant hsq (s := rest) hf.2 hd.2 hl.2
      refine ⟨da.simplify :: ds, by rw [derivativeAll, ha, hds]; rfl, fun d hd => ?_⟩
      rcases List.mem_cons.mp hd with rfl | hd
      · exact hda
      · exact hzero d hd

end

end Expr

end FlatModel.Symbolic
