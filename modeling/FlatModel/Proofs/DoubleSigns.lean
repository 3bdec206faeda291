import Mathlib
import FlatModel.Proofs.ExactNumber
import FlatModel.Proofs.ShortestDigits

/-!
# Doubles and their opposites

* `Double.unpack_neg`, `Double.neg_neg` — the opposite of a double has its parts, but for the sign.
* `Double.lt_zero_of_negative` — a double with a minus sign is below zero, unless it is the negative
  zero.
* `Exact.ofDouble_neg` — the rational of the opposite is the opposite rational.
-/

namespace FlatModel.Decimal.Double

open Float.Model Float.Model.UnpackedFloat

variable {x : Float}

/-- A zero is held by the bits that it is packed into. -/
theorem unpack_pack_zero (s : Sign) : (Float.Model.pack (.zero s)).unpack = .zero s :=
  unpack_packedZero

/-- The sign of the parts of a number changes back. -/
theorem neg_neg_parts (u : UnpackedFloat) : u.neg.neg = u := by
  cases u with
  | notANumber => rfl
  | infinity s | zero s | finite s => cases s <;> rfl

/-- An infinity is held by the bits that it is packed into. -/
theorem unpack_pack_infinity (s : Sign) :
    (Float.Model.pack (.infinity s)).unpack = .infinity s := by
  cases s <;> rfl

/-- The opposite of a double has its parts, but for the sign. -/
theorem unpack_neg (x : Float) : (-x).toModel.unpack = x.toModel.unpack.neg := by
  show (Float.Model.pack x.toModel.unpack.neg).unpack = _
  by_cases hx : x.isFinite = true
  · rcases unpack_eq hx with hunpack | ⟨hb, hunpack⟩
    · rw [hunpack]
      exact unpack_pack_zero _
    · rw [hunpack]
      exact hb.unpack_pack _
  · replace hx : ¬ x.toModel.unpack.isFinite = true := hx
    cases hunpack : x.toModel.unpack with
    | notANumber => exact unpack_packedNaN
    | infinity s => exact unpack_pack_infinity _
    | zero s | finite s => exact absurd (by rw [hunpack]; rfl) hx

/-- The opposite of a finite double is finite. -/
theorem isFinite_neg (hx : x.isFinite = true) : (-x).isFinite = true := by
  show (-x).toModel.unpack.isFinite = true
  rw [unpack_neg]
  rcases unpack_eq hx with hunpack | ⟨hb, hunpack⟩ <;> rw [hunpack] <;> rfl

/-- The opposite of the opposite is the double itself. -/
theorem neg_neg (x : Float) : - -x = x := by
  calc - -x = .ofModel (.pack (-x).toModel.unpack.neg) := rfl
    _ = .ofModel (.pack x.toModel.unpack) := by rw [unpack_neg, neg_neg_parts]
    _ = x := Layout.ofModel_pack_unpack x

/-- The negative zero. -/
theorem negZero_eq : (-0.0 : Float) = .ofModel (.pack (.zero .negative)) := by
  rw [Layout.zero_eq]
  calc -Float.ofModel (.pack (.zero .positive))
      = .ofModel (.pack (Float.Model.pack (.zero .positive)).unpack.neg) := rfl
    _ = .ofModel (.pack (.zero .negative)) := by rw [unpack_pack_zero]; rfl

/-- A double is below zero if its parts are. -/
theorem lt_zero_iff : x < 0.0 ↔ x.toModel.unpack.lt (.zero .positive) = true := by
  have hlt : x < 0.0 ↔ x.toModel.unpack.lt (Float.toModel 0.0).unpack = true := by
    show Float.lt x 0.0 = true ↔ _
    rw [Float.lt, decide_eq_true_iff]
    rfl
  rw [hlt, Layout.zero_eq, unpack_pack_zero]

/-- A finite double with a minus sign is below zero, unless it is the negative zero. -/
theorem lt_zero_of_negative (hx : x.isFinite = true) (hsign : sign x = .negative)
    (hne : x ≠ -0.0) : x < 0.0 := by
  rw [lt_zero_iff]
  rcases unpack_eq hx with hunpack | ⟨hb, hunpack⟩
  · rw [hsign] at hunpack
    refine absurd ?_ hne
    rw [← Layout.ofModel_pack_unpack x, hunpack, negZero_eq]
  · rw [hunpack, hsign]
    rfl

end FlatModel.Decimal.Double

namespace FlatModel.Symbolic.Exact

open Decimal Float.Model Float.Model.UnpackedFloat

variable {F : Functions ℚ} {x : Float} {s : Sign} {m : ℕ} {e : ℤ} {hm : 0 < m}

/-- A finite double is the rational that its bits hold, with its sign. -/
theorem toRat?_ofDouble (hx : x.isFinite = true) :
    let magnitude := (Binary.ofBits x.toBits).value
    (ofDouble x : Exact F).toRat? = some (if x < 0.0 then -magnitude else magnitude) := by
  rw [ofDouble, if_pos hx]
  rfl

/-- Both zeros are the rational zero. -/
theorem toRat?_ofDouble_zero (hx : x.isFinite = true) (h : x.toModel.unpack = .zero s) :
    (ofDouble x : Exact F).toRat? = some 0 := by
  have hzero : x = .ofModel (.pack (.zero s)) := by rw [← h, Layout.ofModel_pack_unpack]
  have hsignificand : (Binary.ofBits x.toBits).significand = 0 := by
    rw [hzero]
    cases s <;> decide +kernel
  rw [toRat?_ofDouble hx, Binary.value, hsignificand]
  simp

/-- A finite double is the rational of its parts. -/
theorem toRat?_ofDouble_finite (hx : x.isFinite = true) (h : x.toModel.unpack = .finite s m e hm) :
    (ofDouble x : Exact F).toRat? = some ((s.apply 1 : ℤ) * ((m : ℚ) * 2 ^ e)) := by
  rcases Double.unpack_eq hx with hunpack | ⟨hb, hunpack⟩
  · rw [h] at hunpack
    cases hunpack
  · have hparts := h.symm.trans hunpack
    injection hparts with hs hsignificand hexponent
    rw [toRat?_ofDouble hx, Binary.value, ← hsignificand, ← hexponent]
    cases s with
    | negative =>
        have hlt : x < 0.0 := by
          rw [Double.lt_zero_iff, h]
          rfl
        simp [if_pos hlt, Sign.apply]
    | positive =>
        have hlt : ¬ x < 0.0 := by
          rw [Double.lt_zero_iff, h]
          exact Bool.false_ne_true
        simp [if_neg hlt, Sign.apply]

/-- **The rational of the opposite is the opposite rational.** -/
theorem ofDouble_neg (hx : x.isFinite = true) :
    (ofDouble (-x) : Exact F) = Scalar.neg (ofDouble x) := by
  have hneg := Double.isFinite_neg hx
  have hparts := Double.unpack_neg x
  have hrat : (ofDouble (-x) : Exact F).toRat? = (ofDouble x : Exact F).toRat?.map (- ·) := by
    rcases Double.unpack_eq hx with hunpack | ⟨hb, hunpack⟩
    · rw [hunpack] at hparts
      rw [toRat?_ofDouble_zero hx hunpack, toRat?_ofDouble_zero hneg hparts]
      simp
    · rw [hunpack] at hparts
      have hopposite : ∀ s : Sign, (-s).apply 1 = -s.apply 1 := by
        intro s
        cases s <;> rfl
      rw [toRat?_ofDouble_finite hx hunpack, toRat?_ofDouble_finite hneg hparts, Option.map_some,
        hopposite, Int.cast_neg, neg_mul]
  exact congrArg Exact.mk hrat

end FlatModel.Symbolic.Exact
