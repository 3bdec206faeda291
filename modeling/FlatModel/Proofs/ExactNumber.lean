import Mathlib.Algebra.Algebra.Rat
import Mathlib.Data.Rat.Lemmas
import Mathlib.Algebra.Order.Ring.Rat
import FlatModel.Symbolic.Simplify

/-!
# Exact numbers

What symbolic computation does to a number is read over the rationals here.

* `ExactScalar` — numbers that stand for rationals and compute as these do.  A number without a
  rational is infinite or undefined, and nothing is said about computing with it.
* `ExactScalar.isZero_iff`, `isOne_iff`, `isMinusOne_iff` — what the tests for single numbers mean.
* `Functions` — powers and calls as partial functions.
* `Exact` — rationals with one undefined number, powers and calls of which fold by given functions.

Which powers and calls of numbers fold, and to what, is left open by `ExactScalar`: the readings of
expressions have to agree with it.
-/

namespace FlatModel.Symbolic

/-- Numbers that stand for rationals and compute exactly. -/
class ExactScalar (K : Type) extends Scalar K where
  /-- The rational a number stands for, if it is finite. -/
  toRat? : K → Option ℚ
  /-- An integer stands for itself. -/
  toRat?_ofInt : ∀ n : ℤ, toRat? (ofInt n) = some (n : ℚ)
  /-- Sums are exact. -/
  toRat?_add : ∀ {x y : K} {a b : ℚ}, toRat? x = some a → toRat? y = some b →
    toRat? (add x y) = some (a + b)
  /-- Differences are exact. -/
  toRat?_sub : ∀ {x y : K} {a b : ℚ}, toRat? x = some a → toRat? y = some b →
    toRat? (sub x y) = some (a - b)
  /-- Products are exact. -/
  toRat?_mul : ∀ {x y : K} {a b : ℚ}, toRat? x = some a → toRat? y = some b →
    toRat? (mul x y) = some (a * b)
  /-- Quotients are exact, unless the divisor is zero. -/
  toRat?_div : ∀ {x y : K} {a b : ℚ}, toRat? x = some a → toRat? y = some b → b ≠ 0 →
    toRat? (div x y) = some (a / b)
  /-- Opposites are exact. -/
  toRat?_neg : ∀ {x : K} {a : ℚ}, toRat? x = some a → toRat? (neg x) = some (-a)
  /-- Numbers are compared by the rationals they stand for. -/
  beq_iff : ∀ {x y : K} {a : ℚ}, toRat? x = some a → (beq x y = true ↔ toRat? y = some a)
  /-- The sign is that of the rational. -/
  isNegative_iff : ∀ {x : K} {a : ℚ}, toRat? x = some a → (isNegative x = true ↔ a < 0)
  /-- The finite numbers are those that stand for a rational. -/
  isFinite_iff : ∀ {x : K}, isFinite x = true ↔ ∃ a, toRat? x = some a

namespace ExactScalar

variable {K : Type} [ExactScalar K] {x : K} {a : ℚ}

theorem toRat?_zero : toRat? (Scalar.zero : K) = some 0 := by
  simpa [Scalar.zero] using toRat?_ofInt (K := K) 0

theorem toRat?_one : toRat? (Scalar.one : K) = some 1 := by
  simpa [Scalar.one] using toRat?_ofInt (K := K) 1

theorem toRat?_two : toRat? (Scalar.two : K) = some 2 := by
  simpa [Scalar.two] using toRat?_ofInt (K := K) 2

theorem toRat?_minusOne : toRat? (Scalar.minusOne : K) = some (-1) := by
  simpa [Scalar.minusOne] using toRat?_ofInt (K := K) (-1)

/-- Of finite numbers, only those that stand for zero count as zero. -/
theorem isZero_iff (h : toRat? x = some a) : Scalar.isZero x = true ↔ a = 0 := by
  rw [Scalar.isZero, beq_iff h, toRat?_zero, Option.some_inj, eq_comm]

/-- A finite number that does not count as zero does not stand for zero. -/
theorem isZero_eq_false_iff (h : toRat? x = some a) : Scalar.isZero x = false ↔ a ≠ 0 := by
  rw [← Bool.not_eq_true, isZero_iff h]

/-- Of finite numbers, only those that stand for one count as one. -/
theorem isOne_iff (h : toRat? x = some a) : Scalar.isOne x = true ↔ a = 1 := by
  rw [Scalar.isOne, beq_iff h, toRat?_one, Option.some_inj, eq_comm]

/-- Of finite numbers, only those that stand for minus one count as minus one. -/
theorem isMinusOne_iff (h : toRat? x = some a) : Scalar.isMinusOne x = true ↔ a = -1 := by
  rw [Scalar.isMinusOne, beq_iff h, toRat?_minusOne, Option.some_inj, eq_comm]

end ExactScalar

/-! ## Rationals with an undefined number -/

/-- Powers and calls as partial functions. -/
structure Functions (A : Type) where
  /-- The power of a base and an exponent. -/
  pow : A → A → Option A
  /-- The value of a function by name. -/
  call : String → List A → Option A

/-- A rational number, or the undefined number, with powers and calls by the functions `F`. -/
structure Exact (F : Functions ℚ) where
  /-- The rational, if the number is defined. -/
  toRat? : Option ℚ
  deriving DecidableEq

namespace Exact

variable {F : Functions ℚ}

/-- The rational that a finite double is. -/
def ofDouble (x : Float) : Exact F :=
  if x.isFinite then
    let d := Decimal.Binary.ofBits x.toBits
    let magnitude : ℚ := d.significand * 2 ^ d.exponent
    ⟨some (if x < 0.0 then -magnitude else magnitude)⟩
  else ⟨none⟩

/-- The number of an operation that may have no result. -/
def lift₂ (f : ℚ → ℚ → Option ℚ) (x y : Exact F) : Exact F :=
  ⟨x.toRat?.bind fun a => y.toRat?.bind fun b => f a b⟩

/-- Rationals as numbers of expressions. -/
instance : Scalar (Exact F) where
  ofInt n := ⟨some n⟩
  ofFloat := ofDouble
  add := lift₂ fun a b => some (a + b)
  sub := lift₂ fun a b => some (a - b)
  mul := lift₂ fun a b => some (a * b)
  div := lift₂ fun a b => if b = 0 then none else some (a / b)
  neg x := ⟨x.toRat?.map (- ·)⟩
  pow := lift₂ F.pow
  call? name xs := ((xs.mapM Exact.toRat?).bind (F.call name)).map fun a => ⟨some a⟩
  beq x y := x.toRat?.any fun a => y.toRat? = some a
  isNegative x := x.toRat?.any fun a => a < 0
  isFinite x := x.toRat?.isSome
  text x := (x.toRat?.map toString).getD "NaN"

/-- Rationals compute exactly. -/
instance : ExactScalar (Exact F) where
  toRat? := Exact.toRat?
  toRat?_ofInt _ := rfl
  toRat?_add hx hy := by simp [Scalar.add, lift₂, hx, hy]
  toRat?_sub hx hy := by simp [Scalar.sub, lift₂, hx, hy]
  toRat?_mul hx hy := by simp [Scalar.mul, lift₂, hx, hy]
  toRat?_div hx hy hb := by simp [Scalar.div, lift₂, hx, hy, hb]
  toRat?_neg hx := by simp [Scalar.neg, hx]
  beq_iff hx := by simp [Scalar.beq, hx]
  isNegative_iff hx := by simp [Scalar.isNegative, hx]
  isFinite_iff := by simp [Scalar.isFinite, Option.isSome_iff_exists]

end Exact

end FlatModel.Symbolic
