import Mathlib
import FlatModel.Decimal.Numeral
import FlatModel.Proofs.DoubleParts

/-!
# Reading doubles

* `Binary.Canonical.covers_value` — a canonical number is in its own interval.
* `Double.canonical_whole`, `Double.value_whole` — a whole number below `2 ^ 53` as a canonical
  number.
* `isPowerOfTen_table`, `Double.mul_eq`, `Double.div_eq` — products and quotients with a small power
  of ten, which the short way takes.
* `Double.ofScientific_eq` — a decimal number in the interval of a double is read as this double,
  whether it takes the short way over exact powers of ten or not.
-/

namespace FlatModel.Decimal

open Float.Model Float.Model.UnpackedFloat

namespace Binary

variable {x : Binary}

/-- A double is in its own interval. -/
theorem Canonical.covers_value (hx : x.Canonical) : x.Covers x.value := by
  have hp : (0 : ℚ) < 2 ^ x.exponent := by positivity
  have hvalue : x.value = (4 * x.significand) * (2 ^ x.exponent / 4) := by
    rw [value]
    ring
  have hlower : (x.lower : ℚ) < 4 * x.significand := by
    rw [lower_eq hx]
    split <;> linarith
  have hupper : (4 * x.significand : ℚ) < x.upper := by
    rw [upper_eq]
    linarith
  have hlow : x.lower * 2 ^ (x.exponent - 2) < x.value := by
    rw [quarter_eq, hvalue]
    exact mul_lt_mul_of_pos_right hlower (by positivity)
  have hhigh : x.value < x.upper * 2 ^ (x.exponent - 2) := by
    rw [quarter_eq, hvalue]
    exact mul_lt_mul_of_pos_right hupper (by positivity)
  exact ⟨hlow.le, hhigh.le, fun _ => ⟨hlow.ne, hhigh.ne⟩⟩

end Binary

namespace Double

/-! ## Whole numbers -/

/-- A whole number with the bits of a double, moved to the left until the first bit is set. -/
def whole (m : ℕ) : Binary :=
  ⟨m <<< (52 - m.log2), -((52 - m.log2 : ℕ) : ℤ), m <<< (52 - m.log2) = 2 ^ 52⟩

variable {m : ℕ} (hm0 : m ≠ 0) (hm : m < 2 ^ 53)

include hm0 hm

/-- A whole number with 53 bits at most is a double. -/
theorem canonical_whole : (whole m).Canonical := by
  have hlog : m.log2 < 53 := (Nat.log2_lt hm0).mpr hm
  have hlow : 2 ^ 52 ≤ m <<< (52 - m.log2) := by
    rw [Nat.shiftLeft_eq]
    calc 2 ^ 52 = 2 ^ m.log2 * 2 ^ (52 - m.log2) := by rw [← pow_add]; congr 1; omega
      _ ≤ m * 2 ^ (52 - m.log2) := Nat.mul_le_mul_right _ (Nat.log2_self_le hm0)
  have hhigh : m <<< (52 - m.log2) < 2 ^ 53 := by
    rw [Nat.shiftLeft_eq]
    calc m * 2 ^ (52 - m.log2) < 2 ^ (m.log2 + 1) * 2 ^ (52 - m.log2) :=
          Nat.mul_lt_mul_of_pos_right Nat.lt_log2_self (by positivity)
      _ = 2 ^ 53 := by rw [← pow_add]; congr 1; omega
  refine ⟨?_, hhigh, ?_, ?_, .inl hlow, ?_⟩
  · show 0 < m <<< (52 - m.log2)
    omega
  · show (-1074 : ℤ) ≤ -((52 - m.log2 : ℕ) : ℤ)
    omega
  · show -((52 - m.log2 : ℕ) : ℤ) ≤ 971
    omega
  · show decide (m <<< (52 - m.log2) = 2 ^ 52) = true ↔
      m <<< (52 - m.log2) = 2 ^ 52 ∧ (-1074 : ℤ) < -((52 - m.log2 : ℕ) : ℤ)
    rw [decide_eq_true_iff]
    omega

omit hm0 hm in
/-- Its value is the number. -/
theorem value_whole : (whole m).value = m := by
  show ((m <<< (52 - m.log2) : ℕ) : ℚ) * 2 ^ (-((52 - m.log2 : ℕ) : ℤ)) = m
  rw [Nat.shiftLeft_eq, zpow_neg, zpow_natCast]
  push_cast
  field_simp

/-- **Whole numbers with 53 bits at most become doubles without rounding.** -/
theorem unpack_toFloat : m.toUInt64.toFloat.toModel.unpack =
    .finite .positive (whole m).significand (whole m).exponent (canonical_whole hm0 hm).pos := by
  have hx := canonical_whole hm0 hm
  have hlog : m.log2 < 53 := (Nat.log2_lt hm0).mpr hm
  have htoNat : m.toUInt64.toNat = m := Nat.mod_eq_of_lt (by omega)
  have htarget : Format.binary64.targetExponent (totalExponent m 0) = m.log2 - 52 := by
    rw [targetExponent_binary64]
    omega
  have hdecrease : decreaseExponent m 0 (Format.binary64.targetExponent (totalExponent m 0)) =
      ((whole m).significand, (whole m).exponent) := by
    rw [htarget]
    have hshift : (-((m.log2 : ℤ) - 52)).toNat = 52 - m.log2 := by omega
    simp only [decreaseExponent, whole, zero_sub, hshift]
  have hround : UnpackedFloat.ofNat .binary64 m =
      .finite .positive (whole m).significand (whole m).exponent hx.pos := by
    have hgt : compare (m : ℤ) 0 = .gt := compare_gt_iff_gt.mpr (by omega)
    unfold UnpackedFloat.ofNat UnpackedFloat.ofInt UnpackedFloat.normalize
    rw [hgt]
    show UnpackedFloat.round .binary64 .positive m 0 = _
    unfold UnpackedFloat.round
    simp only [hdecrease]
    refine hx.covers_value.roundWithAccuracy hx ?_ hx.targetExponent.ge _
    rw [Binary.value, mul_div_cancel_right₀ _ (zpow_ne_zero _ two_ne_zero)]
    exact Represents.exact _
  show (Float.Model.pack (UnpackedFloat.ofNat .binary64 m.toUInt64.toNat)).unpack = _
  rw [htoNat, hround]
  exact hx.unpack_pack _

omit hm0 hm

/-! ## Powers of ten -/

/-- Whether a double stands for a power of ten, with all its bits. -/
def isPowerOfTen (x : Float) (n : ℕ) : Bool :=
  match x.toModel.unpack with
  | .finite .positive m e _ => 2 ^ 52 ≤ m ∧ m * 2 ^ e.toNat = 10 ^ n * 2 ^ (-e).toNat
  | _ => false

/-- What stands for a power of ten has its value. -/
theorem exists_of_isPowerOfTen {x : Float} {n : ℕ} (h : isPowerOfTen x n = true) :
    ∃ m e hpos, x.toModel.unpack = .finite .positive m e hpos ∧ 2 ^ 52 ≤ m ∧
      (m * 2 ^ e : ℚ) = 10 ^ n := by
  unfold isPowerOfTen at h
  split at h
  · rename_i m e hpos hunpack
    obtain ⟨hm, hvalue⟩ := of_decide_eq_true h
    refine ⟨m, e, hpos, hunpack, hm, ?_⟩
    have hvalue : (m * 2 ^ e.toNat : ℚ) = 10 ^ n * 2 ^ (-e).toNat := by exact_mod_cast hvalue
    rcases le_total 0 e with he | he
    · obtain ⟨k, rfl⟩ := Int.eq_ofNat_of_zero_le he
      simpa using hvalue
    · obtain ⟨k, hk⟩ := Int.eq_ofNat_of_zero_le (Int.neg_nonneg.mpr he)
      obtain rfl : e = -(k : ℤ) := by omega
      rw [zpow_neg, zpow_natCast, ← div_eq_mul_inv, div_eq_iff (by positivity)]
      simpa using hvalue
  · cases h

/-- The powers of ten from the table. -/
theorem isPowerOfTen_table {n : ℕ} (h : n < Float.exactlyRepresentablePowersOfTen.size) :
    isPowerOfTen Float.exactlyRepresentablePowersOfTen[n] n = true := by
  have hall : ∀ k : Fin Float.exactlyRepresentablePowersOfTen.size,
      isPowerOfTen (getElem Float.exactlyRepresentablePowersOfTen k.val k.isLt) k = true := by
    clear h n
    decide +kernel
  exact hall ⟨n, h⟩

/-! ## Decimal numbers -/

section operations

variable {x : Binary} {a b : Float} {m n : ℕ} {e k : ℤ} {hm : 0 < m} {hn : 0 < n}

/-- A product of doubles in the interval of a double. -/
theorem mul_eq (hx : x.Canonical) (ha : a.toModel.unpack = .finite .positive m e hm)
    (hb : b.toModel.unpack = .finite .positive n k hn) (hv : x.Covers (m * n * 2 ^ (e + k)))
    (hbits : 2 ^ 52 ≤ m * n) :
    a * b = .ofModel (.pack (.finite .positive x.significand x.exponent hx.pos)) := by
  show Float.ofModel (.pack (UnpackedFloat.mul .binary64 a.toModel.unpack b.toModel.unpack)) = _
  rw [ha, hb, hv.mul hx hbits]
  rfl

/-- A quotient of doubles in the interval of a double. -/
theorem div_eq (hx : x.Canonical) (ha : a.toModel.unpack = .finite .positive m e hm)
    (hb : b.toModel.unpack = .finite .positive n k hn) (hv : x.Covers (m * 2 ^ e / (n * 2 ^ k))) :
    a / b = .ofModel (.pack (.finite .positive x.significand x.exponent hx.pos)) := by
  show Float.ofModel (.pack (UnpackedFloat.div .binary64 a.toModel.unpack b.toModel.unpack)) = _
  rw [ha, hb, hv.div hx]
  rfl

end operations

/-- **A decimal number in the interval of a double is read as this double**, whether or not the way
over the table is taken. -/
theorem ofScientific_eq {x : Binary} (hx : x.Canonical) {c : ℕ} {g : ℤ} (hc : c ≠ 0)
    (hv : x.Covers (c * 10 ^ g)) :
    Float.ofScientific c (decide (g < 0)) g.natAbs =
      .ofModel (.pack (.finite .positive x.significand x.exponent hx.pos)) := by
  unfold Float.ofScientific
  split
  · rename_i hfast
    obtain ⟨hc53, hg⟩ := hfast
    have hwhole := canonical_whole hc hc53
    have hunpack := unpack_toFloat hc hc53
    obtain ⟨m, e, hpos, hpower, hm, hvalue⟩ :=
      exists_of_isPowerOfTen (isPowerOfTen_table (Nat.lt_succ_of_le hg))
    have hwholeValue : ((whole c).significand * 2 ^ (whole c).exponent : ℚ) = c := value_whole
    by_cases hneg : g < 0
    · rw [decide_eq_true hneg]
      have hquotient : x.Covers ((whole c).significand * 2 ^ (whole c).exponent / (m * 2 ^ e)) := by
        have hten : (10 : ℚ) ^ g = (10 ^ g.natAbs)⁻¹ := by
          rw [← zpow_natCast, ← zpow_neg]
          congr 1
          omega
        rwa [hwholeValue, hvalue, div_eq_mul_inv, ← hten]
      exact div_eq hx hunpack hpower hquotient
    · rw [decide_eq_false hneg]
      have hproduct : x.Covers ((whole c).significand * m * 2 ^ ((whole c).exponent + e)) := by
        have hten : (10 : ℚ) ^ g = 10 ^ g.natAbs := by
          rw [← zpow_natCast]
          congr 1
          omega
        have hsplit : ((whole c).significand * m * 2 ^ ((whole c).exponent + e) : ℚ) =
            (whole c).significand * 2 ^ (whole c).exponent * (m * 2 ^ e) := by
          rw [zpow_add₀ two_ne_zero]
          ring
        rwa [hsplit, hwholeValue, hvalue, ← hten]
      have hbits : 2 ^ 52 ≤ (whole c).significand * m :=
        hm.trans (Nat.le_mul_of_pos_left _ hwhole.pos)
      exact mul_eq hx hunpack hpower hproduct hbits
  · have hg : (if decide (g < 0) then Int.negOfNat g.natAbs else Int.ofNat g.natAbs) = g := by
      by_cases hneg : g < 0
      · rw [decide_eq_true hneg, if_pos rfl, Int.negOfNat_eq]
        show -(g.natAbs : ℤ) = g
        omega
      · rw [decide_eq_false hneg, if_neg Bool.false_ne_true]
        show (g.natAbs : ℤ) = g
        omega
    simp only [hg]
    show Float.ofModel (.pack (UnpackedFloat.ofScientific .binary64 c g)) = _
    rw [hv.ofScientific hx hc]

end Double

end FlatModel.Decimal
