import Mathlib
import FlatModel.Decimal.Shortest

/-!
# Rounding to the nearest double

* `Binary.Canonical` — a positive double in the form in which its bits hold it.
* `Binary.Covers x v` — the number `v` is in the interval of the numbers that round to `x`.
* `Represents` — what the bits behind a mantissa say of the number that it stands for.
* `Binary.Covers.roundWithAccuracy` — a number in the interval of a double rounds to this double.
* `Binary.Covers.mul`, `Binary.Covers.div` — so do products and quotients with values in it.
* `Binary.Covers.ofScientific` — so does a decimal number with its value in it.
-/

namespace FlatModel.Decimal

open Float.Model Float.Model.UnpackedFloat

/-! ## Intervals of numbers -/

namespace Binary

/-- A positive double as its bits hold it: with all bits of the significand unless the exponent is the
least one. -/
structure Canonical (x : Binary) : Prop where
  /-- The significand is positive. -/
  pos : 0 < x.significand
  /-- The significand has 53 bits at most. -/
  lt : x.significand < 2 ^ 53
  /-- The least exponent. -/
  least : -1074 ≤ x.exponent
  /-- The greatest exponent. -/
  greatest : x.exponent ≤ 971
  /-- The first bit is set unless the exponent is the least one. -/
  normal : 2 ^ 52 ≤ x.significand ∨ x.exponent = -1074
  /-- The double below is nearer just under a power of two with other exponents. -/
  nearerBelow : x.nearerBelow = true ↔ x.significand = 2 ^ 52 ∧ -1074 < x.exponent

/-- The number that the double stands for. -/
def value (x : Binary) : ℚ := x.significand * 2 ^ x.exponent

/-- The numbers that round to the double, measured in quarters of its last place.  The ends are among
them if the significand is even. -/
structure Covers (x : Binary) (v : ℚ) : Prop where
  /-- No number below the lower end. -/
  lower_le : x.lower * 2 ^ (x.exponent - 2) ≤ v
  /-- No number above the upper end. -/
  le_upper : v ≤ x.upper * 2 ^ (x.exponent - 2)
  /-- No end if the significand is odd. -/
  ends : x.significand % 2 = 1 →
    x.lower * 2 ^ (x.exponent - 2) ≠ v ∧ v ≠ x.upper * 2 ^ (x.exponent - 2)

variable {x : Binary} {v : ℚ}

/-- A quarter of the last place. -/
theorem quarter_eq (e : ℤ) : (2 : ℚ) ^ (e - 2) = 2 ^ e / 4 := by
  rw [zpow_sub₀ two_ne_zero]
  norm_num

/-- The lower end: half a place below the double, or a quarter. -/
theorem lower_eq (hx : x.Canonical) :
    (x.lower : ℚ) = if x.nearerBelow then 4 * (x.significand : ℚ) - 1 else 4 * x.significand - 2 := by
  have hpos := hx.pos
  unfold lower quarters
  split
  · rw [Nat.cast_sub (by omega)]
    push_cast
    rfl
  · rw [Nat.cast_sub (by omega)]
    push_cast
    rfl

/-- The upper end: half a place above the double. -/
theorem upper_eq : (x.upper : ℚ) = 4 * x.significand + 2 := by
  rw [upper, quarters]
  push_cast
  rfl

namespace Covers

/-- Measured in places, a number that rounds to the double is at most a half below it. -/
theorem le_place (hx : x.Canonical) (hv : x.Covers v) :
    ((x.significand : ℚ) - 1 / 2) ≤ v / 2 ^ x.exponent := by
  have hp : (0 : ℚ) < 2 ^ x.exponent := by positivity
  have h := hv.lower_le
  rw [lower_eq hx, quarter_eq] at h
  rw [le_div_iff₀ hp]
  split at h <;> nlinarith

/-- At most a half above it. -/
theorem place_le (hv : x.Covers v) : v / 2 ^ x.exponent ≤ (x.significand : ℚ) + 1 / 2 := by
  have hp : (0 : ℚ) < 2 ^ x.exponent := by positivity
  have h := hv.le_upper
  rw [upper_eq, quarter_eq] at h
  rw [div_le_iff₀ hp]
  linarith

/-- Measured in places, a number that rounds to an odd significand is less than a half away. -/
theorem abs_lt (hx : x.Canonical) (hv : x.Covers v) (hodd : x.significand % 2 = 1) :
    (x.significand : ℚ) - 1 / 2 < v / 2 ^ x.exponent ∧
      v / 2 ^ x.exponent < (x.significand : ℚ) + 1 / 2 := by
  have hp : (0 : ℚ) < 2 ^ x.exponent := by positivity
  obtain ⟨hlower, hupper⟩ := hv.ends hodd
  have hlower := lt_of_le_of_ne hv.lower_le hlower
  have hupper := lt_of_le_of_ne hv.le_upper hupper
  rw [lower_eq hx, quarter_eq] at hlower
  rw [upper_eq, quarter_eq] at hupper
  rw [lt_div_iff₀ hp, div_lt_iff₀ hp]
  constructor
  · split at hlower <;> nlinarith
  · linarith

/-- Just under a power of two, measured in places, it is at most a quarter below the double. -/
theorem le_place_of_nearerBelow (hx : x.Canonical) (hv : x.Covers v)
    (hnear : x.nearerBelow = true) : ((x.significand : ℚ) - 1 / 4) ≤ v / 2 ^ x.exponent := by
  have hp : (0 : ℚ) < 2 ^ x.exponent := by positivity
  have h := hv.lower_le
  rw [lower_eq hx, quarter_eq, if_pos hnear] at h
  rw [le_div_iff₀ hp]
  linarith

end Covers

end Binary

/-! ## Mantissas with rounding bits -/

/-- What the round bit adds to a mantissa. -/
def half (em : ExtendedMantissa) : ℚ := if em.roundBit then 1 / 2 else 0

/-- The number begins with the mantissa and the round bit, and the sticky bit tells whether more
follows. -/
structure Represents (em : ExtendedMantissa) (w : ℚ) : Prop where
  /-- The mantissa and the round bit are not above the number. -/
  le : em.mantissa + half em ≤ w
  /-- What follows is less than the round bit. -/
  lt : w < em.mantissa + half em + 1 / 2
  /-- Whether more follows. -/
  sticky : em.stickyBit = false ↔ w = em.mantissa + half em

namespace Represents

variable {em : ExtendedMantissa} {w : ℚ}

theorem half_nonneg (em : ExtendedMantissa) : 0 ≤ half em := by
  unfold half
  split <;> norm_num

theorem half_le (em : ExtendedMantissa) : half em ≤ 1 / 2 := by
  unfold half
  split <;> norm_num

theorem half_eq_zero_iff : half em = 0 ↔ em.roundBit = false := by
  unfold half
  cases em.roundBit <;> norm_num

/-- The number is not below the mantissa. -/
theorem mantissa_le (h : Represents em w) : (em.mantissa : ℚ) ≤ w := by
  linarith [h.le, half_nonneg em]

/-- The number is less than one above the mantissa. -/
theorem lt_mantissa_add_one (h : Represents em w) : w < em.mantissa + 1 := by
  linarith [h.lt, half_le em]

/-- A shift by one place halves the number. -/
theorem shiftRightOne (h : Represents em w) : Represents em.shiftRightOne (w / 2) := by
  have hmantissa : (em.mantissa : ℚ) = 2 * (em.mantissa / 2 : ℕ) + (em.mantissa % 2 : ℕ) := by
    exact_mod_cast (Nat.div_add_mod em.mantissa 2).symm
  have hhalf : half em.shiftRightOne = (em.mantissa % 2 : ℕ) / 2 := by
    unfold half ExtendedMantissa.shiftRightOne
    rcases Nat.mod_two_eq_zero_or_one em.mantissa with hmod | hmod <;> simp [hmod]
  have hbegin : ((em.shiftRightOne.mantissa : ℚ) + half em.shiftRightOne) = em.mantissa / 2 := by
    rw [hhalf, hmantissa]
    show ((em.mantissa / 2 : ℕ) : ℚ) + _ = _
    ring
  have hnonneg := half_nonneg em
  have hle := half_le em
  constructor
  · rw [hbegin]
    linarith [h.le]
  · rw [hbegin]
    linarith [h.lt]
  · rw [hbegin]
    show (em.roundBit || em.stickyBit) = false ↔ _
    rw [Bool.or_eq_false_iff, ← half_eq_zero_iff, h.sticky]
    constructor
    · rintro ⟨hround, hw⟩
      linarith
    · intro hw
      have hround : half em = 0 := by linarith [h.le]
      exact ⟨hround, by linarith⟩

/-- A shift divides the number by a power of two. -/
theorem shiftRight (h : Represents em w) (n : ℕ) : Represents (em >>> n) (w / 2 ^ n) := by
  show Represents (n.repeat ExtendedMantissa.shiftRightOne em) _
  induction n with
  | zero => simpa [Nat.repeat] using h
  | succ n ih =>
      rw [Nat.repeat, pow_succ, ← div_div]
      exact ih.shiftRightOne

/-- The mantissa is rounded to the nearest whole number, to the even one of two. -/
theorem roundedMantissa_eq (h : Represents em w) {n : ℕ} (hle : (n : ℚ) - 1 / 2 ≤ w)
    (hge : w ≤ n + 1 / 2) (hodd : n % 2 = 1 → (n : ℚ) - 1 / 2 < w ∧ w < n + 1 / 2) :
    em.roundedMantissa = n := by
  have hlow := h.le
  have hhigh := h.lt
  have hsticky := h.sticky
  obtain ⟨m, r, s⟩ := em
  cases r <;> cases s <;>
    simp only [half, if_true, if_false, Bool.false_eq_true, true_iff, false_iff, add_zero,
      Bool.true_eq_false] at hlow hhigh hsticky
  · -- nothing follows
    have hmn : (m : ℚ) < n + 1 := by linarith
    have hnm : (n : ℚ) < m + 1 := by linarith
    have hmn : m < n + 1 := by exact_mod_cast hmn
    have hnm : n < m + 1 := by exact_mod_cast hnm
    show m = n
    omega
  · have hnm : (n : ℚ) < m + 1 := by linarith
    have hmn : (m : ℚ) < n + 1 := by linarith
    have hmn : m < n + 1 := by exact_mod_cast hmn
    have hnm : n < m + 1 := by exact_mod_cast hnm
    show m = n
    omega
  · -- the number is half way between two whole numbers
    have hnm : (n : ℚ) ≤ m + 1 := by linarith
    have hmn : (m : ℚ) ≤ n := by linarith
    have hmn : m ≤ n := by exact_mod_cast hmn
    have hnm : n ≤ m + 1 := by exact_mod_cast hnm
    have heven : n % 2 = 0 := by
      by_contra hne
      obtain ⟨hlower, hupper⟩ := hodd (by omega)
      rw [hsticky] at hlower hupper
      have hnm' : (n : ℚ) < m + 1 := by linarith
      have hmn' : (m : ℚ) < n := by linarith
      have hnm' : n < m + 1 := by exact_mod_cast hnm'
      have hmn' : m < n := by exact_mod_cast hmn'
      omega
    show m + m % 2 = n
    omega
  · have hmn : (m : ℚ) < n := by
      have hne : (m : ℚ) + 1 / 2 < w := lt_of_le_of_ne hlow (Ne.symm hsticky)
      linarith
    have hnm : (n : ℚ) < m + 2 := by linarith
    have hmn : m < n := by exact_mod_cast hmn
    have hnm : n < m + 2 := by exact_mod_cast hnm
    show m + 1 = n
    omega

/-- A whole number represents itself. -/
theorem exact (m : ℕ) : Represents (.ofMantissaAndAccuracy m .exact) m := by
  constructor <;> simp [ExtendedMantissa.ofMantissaAndAccuracy, half]

/-- A proper fraction above a whole number is represented by its accuracy. -/
theorem fraction (m : ℕ) {num den : ℕ} (h : num < den) :
    Represents (.ofMantissaAndAccuracy m (accuracyOfFraction num den)) (m + num / den) := by
  have hden : (0 : ℚ) < den := by exact_mod_cast Nat.zero_lt_of_lt h
  have hlt : (num : ℚ) < den := by exact_mod_cast h
  unfold accuracyOfFraction
  split
  · rename_i hnum
    simpa [hnum] using exact m
  · rename_i hnum
    have hpos : (0 : ℚ) < num := by exact_mod_cast Nat.pos_of_ne_zero hnum
    have hfrac : (0 : ℚ) < num / den := by positivity
    have hone : (num / den : ℚ) < 1 := (div_lt_one hden).mpr hlt
    rcases hcompare : compare (2 * num) den with _ | _ | _
    · -- less than a half
      have h2 : (2 * num : ℚ) < den := by exact_mod_cast compare_lt_iff_lt.mp hcompare
      have hhalf : (num / den : ℚ) < 1 / 2 := by rw [div_lt_iff₀ hden]; linarith
      constructor <;> simp [ExtendedMantissa.ofMantissaAndAccuracy, half] <;> grind
    · have h2 : (2 * num : ℚ) = den := by exact_mod_cast compare_eq_iff_eq.mp hcompare
      have hhalf : (num / den : ℚ) = 1 / 2 := by rw [div_eq_iff hden.ne']; linarith
      constructor <;> simp [ExtendedMantissa.ofMantissaAndAccuracy, half, hhalf]
    · have h2 : (den : ℚ) < 2 * num := by exact_mod_cast compare_gt_iff_gt.mp hcompare
      have hhalf : (1 / 2 : ℚ) < num / den := by rw [lt_div_iff₀ hden]; linarith
      constructor <;> simp [ExtendedMantissa.ofMantissaAndAccuracy, half] <;> grind

end Represents

/-! ## Rounding -/

/-- The exponent that a mantissa should have. -/
theorem targetExponent_binary64 (m : ℕ) (e : ℤ) :
    Format.binary64.targetExponent (totalExponent m e) = max (m.log2 + 1 + e - 53) (-1074) := by
  have hleast : Format.binary64.minExponent = -1074 := by decide
  have hbits : (Format.binary64.mantissaBits : ℤ) = 53 := by decide
  rw [Format.targetExponent, totalExponent, hleast, hbits]

namespace Binary

variable {x : Binary} {v : ℚ}

/-- A canonical double has the exponent it should have. -/
theorem Canonical.targetExponent (hx : x.Canonical) :
    Format.binary64.targetExponent (totalExponent x.significand x.exponent) = x.exponent := by
  rw [targetExponent_binary64]
  have hlt : x.significand.log2 < 53 := (Nat.log2_lt hx.pos.ne').mpr hx.lt
  have hleast := hx.least
  rcases hx.normal with h | h
  · have hlog : 52 ≤ x.significand.log2 := (Nat.le_log2 hx.pos.ne').mpr h
    omega
  · omega

end Binary

/-- A mantissa whose exponent is as large as it should be is not shifted. -/
theorem shiftToTargetExponent_of_le {m : ℕ} {e : ℤ}
    (h : Format.binary64.targetExponent (totalExponent m e) ≤ e) :
    shiftToTargetExponent .binary64 m e .exact = (⟨m, false, false⟩, e) := by
  have hshift : (Format.binary64.targetExponent (totalExponent m e) - e).toNat = 0 := by omega
  simp [shiftToTargetExponent, shiftToExponent, hshift, HShiftRight.hShiftRight, Nat.repeat,
    ExtendedMantissa.ofMantissaAndAccuracy]

/-- A mantissa with one bit too many is shifted by one place. -/
theorem shiftToTargetExponent_of_carry {e : ℤ} (he : -1074 ≤ e) :
    shiftToTargetExponent .binary64 (2 ^ 53) e .exact = (⟨2 ^ 52, false, false⟩, e + 1) := by
  have htarget : Format.binary64.targetExponent (totalExponent (2 ^ 53) e) = e + 1 := by
    rw [targetExponent_binary64, Nat.log2_two_pow]
    omega
  unfold shiftToTargetExponent
  rw [htarget]
  simp [shiftToExponent, HShiftRight.hShiftRight, Nat.repeat, ExtendedMantissa.ofMantissaAndAccuracy,
    ExtendedMantissa.shiftRightOne]

namespace Binary

variable {x : Binary} {v : ℚ}

/-- The magnitude of what a mantissa that is not zero represents. -/
theorem magnitude_of_represents {m : ℕ} {e : ℤ} {acc : Accuracy} (hm0 : m ≠ 0)
    (hm : Represents (.ofMantissaAndAccuracy m acc) (v / 2 ^ e)) :
    (2 : ℚ) ^ (m.log2 + e) ≤ v ∧ v < 2 ^ (m.log2 + e + 1) := by
  have hp : (0 : ℚ) < 2 ^ e := by positivity
  have hmantissa : (ExtendedMantissa.ofMantissaAndAccuracy m acc).mantissa = m := by
    rcases acc with _ | ⟨_ | _ | _⟩ <;> rfl
  have hlow := hm.mantissa_le
  have hhigh := hm.lt_mantissa_add_one
  rw [hmantissa, le_div_iff₀ hp] at hlow
  rw [hmantissa, div_lt_iff₀ hp] at hhigh
  have hlog : ((2 : ℚ) ^ m.log2) ≤ m := by exact_mod_cast Nat.log2_self_le hm0
  have hlog' : (m : ℚ) + 1 ≤ 2 ^ (m.log2 + 1) := by exact_mod_cast Nat.lt_log2_self (n := m)
  constructor
  · rw [zpow_add₀ two_ne_zero, zpow_natCast]
    nlinarith
  · have hsplit : (2 : ℚ) ^ (m.log2 + e + 1) = 2 ^ (m.log2 + 1) * 2 ^ e := by
      rw [← zpow_natCast, ← zpow_add₀ two_ne_zero]
      congr 1
      push_cast
      ring
    rw [hsplit]
    nlinarith

/-- A number of at least `2 ^ k` places has its first bit at least `k` above the last place. -/
theorem lt_of_pow_le_place {k : ℕ} {i j : ℤ} (h : (2 : ℚ) ^ k ≤ v / 2 ^ i) (hv : v < 2 ^ j) :
    k + i < j := by
  have hp : (0 : ℚ) < 2 ^ i := by positivity
  apply (zpow_lt_zpow_iff_right₀ (one_lt_two : (1 : ℚ) < 2)).mp
  rw [zpow_add₀ two_ne_zero, zpow_natCast]
  rw [le_div_iff₀ hp] at h
  exact lt_of_le_of_lt h hv

/-- A number of less than `2 ^ k` places has its first bit less than `k` above the last place. -/
theorem lt_of_place_lt_pow {k : ℕ} {i j : ℤ} (h : v / 2 ^ i < (2 : ℚ) ^ k) (hv : 2 ^ j ≤ v) :
    j < k + i := by
  have hp : (0 : ℚ) < 2 ^ i := by positivity
  apply (zpow_lt_zpow_iff_right₀ (one_lt_two : (1 : ℚ) < 2)).mp
  rw [zpow_add₀ two_ne_zero, zpow_natCast]
  rw [div_lt_iff₀ hp] at h
  exact lt_of_le_of_lt hv h

/-- Only doubles with the least exponent cover numbers without a mantissa. -/
theorem Covers.exponent_of_zero (hx : x.Canonical) (hv : x.Covers v) {e : ℤ} {acc : Accuracy}
    (hm : Represents (.ofMantissaAndAccuracy 0 acc) (v / 2 ^ e)) (he : e ≤ -1074) :
    x.exponent = -1074 := by
  have hleast := hx.least
  refine hx.normal.resolve_left fun hnormal => ?_
  have hsmall : v < 2 ^ e := by
    have h := hm.lt_mantissa_add_one
    have hmantissa : (ExtendedMantissa.ofMantissaAndAccuracy 0 acc).mantissa = 0 := by
      rcases acc with _ | ⟨_ | _ | _⟩ <;> rfl
    rw [hmantissa, div_lt_iff₀ (by positivity)] at h
    simpa using h
  have hlow := hv.le_place hx
  have hnormal' : (2 ^ 52 : ℚ) ≤ x.significand := by exact_mod_cast hnormal
  have hplace : (2 : ℚ) ^ 0 ≤ v / 2 ^ x.exponent := by
    rw [pow_zero]
    linarith
  have h := lt_of_pow_le_place hplace hsmall
  omega

/-- What is rounded to a double after the first shift: the double itself, or, just under a power of
two, one bit more and an exponent less by one. -/
theorem Covers.target (hx : x.Canonical) (hv : x.Covers v) {m : ℕ} {e : ℤ} {acc : Accuracy}
    (hm : Represents (.ofMantissaAndAccuracy m acc) (v / 2 ^ e))
    (he : e ≤ Format.binary64.targetExponent (totalExponent m e)) :
    Format.binary64.targetExponent (totalExponent m e) = x.exponent ∨
      Format.binary64.targetExponent (totalExponent m e) = x.exponent - 1 ∧
        x.nearerBelow = true ∧ v / 2 ^ x.exponent < 2 ^ 52 := by
  have hleast := hx.least
  rw [targetExponent_binary64] at he ⊢
  rcases Nat.eq_zero_or_pos m with rfl | hm0
  · rw [Nat.log2_zero] at he ⊢
    have hexponent := hv.exponent_of_zero hx hm (by omega)
    omega
  obtain ⟨hmag, hmag'⟩ := magnitude_of_represents hm0.ne' hm
  have hupper : (m.log2 : ℤ) + e < (53 : ℕ) + x.exponent := by
    refine lt_of_place_lt_pow ?_ hmag
    have hhigh := hv.place_le
    have hlt : (x.significand : ℚ) + 1 ≤ 2 ^ 53 := by exact_mod_cast hx.lt
    linarith
  rcases eq_or_lt_of_le hleast with hleast | hleast
  · omega
  have hnormal := hx.normal.resolve_right hleast.ne'
  by_cases hpower : (2 : ℚ) ^ 52 ≤ v / 2 ^ x.exponent
  · have hlower := lt_of_pow_le_place hpower hmag'
    omega
  · right
    rw [not_le] at hpower
    have hlow := hv.le_place hx
    have hsig : x.significand = 2 ^ 52 := by
      have h : (x.significand : ℚ) < 2 ^ 52 + 1 := by linarith
      have h : x.significand < 2 ^ 52 + 1 := by exact_mod_cast h
      omega
    have hnear := hx.nearerBelow.mpr ⟨hsig, hleast⟩
    refine ⟨?_, hnear, hpower⟩
    have hplace : (2 : ℚ) ^ 51 ≤ v / 2 ^ x.exponent := by
      have hquarter := hv.le_place_of_nearerBelow hx hnear
      rw [hsig] at hquarter
      push_cast at hquarter
      linarith
    have hlower := lt_of_pow_le_place hplace hmag'
    have hupper := lt_of_place_lt_pow hpower hmag
    omega

/-- **A number in the interval of a double rounds to this double.** -/
theorem Covers.roundWithAccuracy (hx : x.Canonical) (hv : x.Covers v) {m : ℕ} {e : ℤ}
    {acc : Accuracy} (hm : Represents (.ofMantissaAndAccuracy m acc) (v / 2 ^ e))
    (he : e ≤ Format.binary64.targetExponent (totalExponent m e)) (s : Sign) :
    roundWithAccuracy .binary64 s m e acc = .finite s x.significand x.exponent hx.pos := by
  obtain ⟨k, hk⟩ := Int.eq_ofNat_of_zero_le (Int.sub_nonneg.mpr he)
  -- the first shift
  have hshift : shiftToTargetExponent .binary64 m e acc =
      (ExtendedMantissa.ofMantissaAndAccuracy m acc >>> k, e + k) := by
    simp only [shiftToTargetExponent, shiftToExponent, hk, Int.toNat_natCast]
  have hrep : Represents (ExtendedMantissa.ofMantissaAndAccuracy m acc >>> k) (v / 2 ^ (e + k)) := by
    have h := hm.shiftRight k
    rwa [div_div, ← zpow_natCast, ← zpow_add₀ two_ne_zero] at h
  unfold UnpackedFloat.roundWithAccuracy
  rw [hshift]
  rcases hv.target hx hm he with htarget | ⟨htarget, hnear, hpower⟩
  · have hexponent : e + k = x.exponent := by omega
    rw [hexponent] at hrep ⊢
    have hround : (ExtendedMantissa.ofMantissaAndAccuracy m acc >>> k).roundedMantissa =
        x.significand := hrep.roundedMantissa_eq (hv.le_place hx) hv.place_le (hv.abs_lt hx)
    simp only [hround, shiftToTargetExponent_of_le hx.targetExponent.le]
    exact dif_neg hx.pos.ne'
  · -- rounding up to a power of two makes a bit too many
    obtain ⟨hsig, hleast⟩ := hx.nearerBelow.mp hnear
    have hexponent : e + k = x.exponent - 1 := by omega
    have hdouble : v / 2 ^ (e + k : ℤ) = 2 * (v / 2 ^ x.exponent) := by
      rw [hexponent, zpow_sub₀ two_ne_zero, zpow_one]
      field_simp
    have hquarter := hv.le_place_of_nearerBelow hx hnear
    rw [hsig] at hquarter
    push_cast at hquarter
    have hround : (ExtendedMantissa.ofMantissaAndAccuracy m acc >>> k).roundedMantissa = 2 ^ 53 := by
      refine hrep.roundedMantissa_eq ?_ ?_ fun hodd => absurd hodd (by decide)
      · rw [hdouble]
        push_cast
        linarith
      · rw [hdouble]
        push_cast
        linarith
    simp only [hround, hexponent, shiftToTargetExponent_of_carry (e := x.exponent - 1) (by omega)]
    simp [hsig]

variable {m₁ m₂ : ℕ} {e₁ e₂ : ℤ} {s r : Sign} {h₁ : 0 < m₁} {h₂ : 0 < m₂}

/-- **A product in the interval of a double is this double**, if it has enough bits. -/
theorem Covers.mul (hx : x.Canonical) (hv : x.Covers (m₁ * m₂ * 2 ^ (e₁ + e₂)))
    (hbits : 2 ^ 52 ≤ m₁ * m₂) :
    UnpackedFloat.mul .binary64 (.finite s m₁ e₁ h₁) (.finite r m₂ e₂ h₂) =
      .finite (s * r) x.significand x.exponent hx.pos := by
  refine hv.roundWithAccuracy hx ?_ ?_ _
  · have hexact := Represents.exact (m₁ * m₂)
    rwa [← mul_div_cancel_right₀ ((m₁ * m₂ : ℕ) : ℚ) (zpow_ne_zero (e₁ + e₂) two_ne_zero),
      Nat.cast_mul] at hexact
  · rw [targetExponent_binary64]
    have hlog : 52 ≤ (m₁ * m₂).log2 := (Nat.le_log2 (Nat.mul_pos h₁ h₂).ne').mpr hbits
    omega

/-- A quotient has all bits that it needs. -/
theorem le_targetExponent_divCore {m n : ℕ} {e : ℤ} {k : ℕ} (hm : 0 < m) (hn : 0 < n)
    (h : e ≤ -1074 ∨ n.log2 + 53 ≤ m.log2 + k) :
    e ≤ Format.binary64.targetExponent (totalExponent ((m <<< k) / n) e) := by
  rw [targetExponent_binary64]
  rcases h with h | h
  · omega
  · have hquotient : 2 ^ 52 ≤ (m <<< k) / n := by
      rw [Nat.le_div_iff_mul_le hn, Nat.shiftLeft_eq]
      have hn' : n < 2 ^ (n.log2 + 1) := Nat.lt_log2_self
      have hm' : 2 ^ m.log2 ≤ m := Nat.log2_self_le hm.ne'
      calc 2 ^ 52 * n ≤ 2 ^ 52 * 2 ^ (n.log2 + 1) := Nat.mul_le_mul_left _ hn'.le
        _ = 2 ^ (n.log2 + 53) := by rw [← pow_add]; congr 1; omega
        _ ≤ 2 ^ (m.log2 + k) := Nat.pow_le_pow_right two_pos h
        _ = 2 ^ m.log2 * 2 ^ k := pow_add _ _ _
        _ ≤ m * 2 ^ k := Nat.mul_le_mul_right _ hm'
    have hlog : 52 ≤ ((m <<< k) / n).log2 :=
      (Nat.le_log2 (by omega)).mpr hquotient
    omega

/-- **A quotient in the interval of a double is this double.** -/
theorem Covers.div (hx : x.Canonical) (hv : x.Covers (m₁ * 2 ^ e₁ / (m₂ * 2 ^ e₂))) :
    UnpackedFloat.div .binary64 (.finite s m₁ e₁ h₁) (.finite r m₂ e₂ h₂) =
      .finite (s / r) x.significand x.exponent hx.pos := by
  have hm₂ : (m₂ : ℚ) ≠ 0 := by exact_mod_cast h₂.ne'
  set t := min (e₁ - e₂)
    (Format.binary64.targetExponent (totalExponent m₁ e₁ - totalExponent m₂ e₂)) with ht
  obtain ⟨k, hk⟩ := Int.eq_ofNat_of_zero_le (Int.sub_nonneg.mpr (ht ▸ min_le_left _ _ : t ≤ e₁ - e₂))
  have hcore : divCore .binary64 m₁ e₁ m₂ e₂ =
      ((m₁ <<< k) / m₂, t, accuracyOfFraction ((m₁ <<< k) % m₂) m₂) := by
    simp only [divCore, ← ht, hk, Int.toNat_natCast]
  show (match divCore .binary64 m₁ e₁ m₂ e₂ with
    | (m, e, acc) => UnpackedFloat.roundWithAccuracy .binary64 (s / r) m e acc) = _
  rw [hcore]
  refine hv.roundWithAccuracy hx ?_ (le_targetExponent_divCore h₁ h₂ ?_) _
  · -- the shifted dividend is the quotient times the divisor and the remainder
    have hfraction := Represents.fraction ((m₁ <<< k) / m₂) (Nat.mod_lt (m₁ <<< k) h₂)
    have hvalue : (m₁ * 2 ^ e₁ / (m₂ * 2 ^ e₂) / 2 ^ t : ℚ) =
        ((m₁ <<< k) / m₂ : ℕ) + ((m₁ <<< k) % m₂ : ℕ) / (m₂ : ℚ) := by
      have hdivmod : ((m₁ <<< k : ℕ) : ℚ) =
          m₂ * ((m₁ <<< k) / m₂ : ℕ) + ((m₁ <<< k) % m₂ : ℕ) := by
        exact_mod_cast (Nat.div_add_mod (m₁ <<< k) m₂).symm
      have hshift : ((m₁ <<< k : ℕ) : ℚ) = m₁ * 2 ^ e₁ / 2 ^ e₂ / 2 ^ t := by
        rw [Nat.shiftLeft_eq, Nat.cast_mul, Nat.cast_pow, Nat.cast_two, mul_div_assoc, mul_div_assoc,
          ← zpow_sub₀ two_ne_zero, ← zpow_sub₀ two_ne_zero, hk, zpow_natCast]
      have hsplit : (m₁ * 2 ^ e₁ / (m₂ * 2 ^ e₂) / 2 ^ t : ℚ) =
          m₁ * 2 ^ e₁ / 2 ^ e₂ / 2 ^ t / m₂ := by
        field_simp
      rw [hsplit, ← hshift, hdivmod, add_div, mul_div_cancel_left₀ _ hm₂]
    rw [hvalue]
    exact hfraction
  · unfold totalExponent Format.targetExponent at ht
    have hleast : Format.binary64.minExponent = -1074 := by decide
    have hbits : (Format.binary64.mantissaBits : ℤ) = 53 := by decide
    rw [hleast, hbits] at ht
    omega

/-! ## Decimal numbers -/

/-- The numbers that round to doubles are not too small. -/
theorem Covers.lt_of_least (hx : x.Canonical) (hv : x.Covers v) : (2 : ℚ) ^ (-1076 : ℤ) < v := by
  have hp : (0 : ℚ) < 2 ^ x.exponent := by positivity
  have hlow := hv.le_place hx
  rw [le_div_iff₀ hp] at hlow
  have hpos : (1 : ℚ) ≤ x.significand := by exact_mod_cast hx.pos
  have hleast : (2 : ℚ) ^ (-1074 : ℤ) ≤ 2 ^ x.exponent := zpow_le_zpow_right₀ one_le_two hx.least
  have hsplit : (2 : ℚ) ^ (-1076 : ℤ) = 2 ^ (-1074 : ℤ) / 4 := by
    rw [show (-1076 : ℤ) = -1074 - 2 by norm_num]
    exact quarter_eq _
  have hleast0 : (0 : ℚ) < 2 ^ (-1074 : ℤ) := by positivity
  rw [hsplit]
  nlinarith

/-- They are not too large. -/
theorem Covers.lt_of_greatest (hx : x.Canonical) (hv : x.Covers v) : v < (2 : ℚ) ^ (1024 : ℤ) := by
  have hp : (0 : ℚ) < 2 ^ x.exponent := by positivity
  have hhigh := hv.place_le
  rw [div_le_iff₀ hp] at hhigh
  have hlt : (x.significand : ℚ) + 1 ≤ 2 ^ 53 := by exact_mod_cast hx.lt
  have hgreatest : (2 : ℚ) ^ x.exponent ≤ 2 ^ (971 : ℤ) :=
    zpow_le_zpow_right₀ one_le_two hx.greatest
  calc v ≤ (x.significand + 1 / 2) * 2 ^ x.exponent := hhigh
    _ < 2 ^ 53 * 2 ^ x.exponent := mul_lt_mul_of_pos_right (by linarith) hp
    _ ≤ 2 ^ 53 * 2 ^ (971 : ℤ) := mul_le_mul_of_nonneg_left hgreatest (by positivity)
    _ = 2 ^ (1024 : ℤ) := by
      rw [← zpow_natCast, ← zpow_add₀ two_ne_zero]
      norm_num

/-- Decimal numbers that round to doubles have no large power of ten. -/
theorem Covers.power_lt (hx : x.Canonical) {c : ℕ} {g : ℤ} (hc : c ≠ 0)
    (hv : x.Covers (c * 10 ^ g)) : g < 1024 := by
  have hc1 : (1 : ℚ) ≤ c := by exact_mod_cast Nat.one_le_iff_ne_zero.mpr hc
  by_contra hge
  obtain ⟨n, rfl⟩ := Int.eq_ofNat_of_zero_le (by omega : 0 ≤ g)
  have hpow : (2 : ℚ) ^ (n : ℤ) ≤ 10 ^ (n : ℤ) := by
    rw [zpow_natCast, zpow_natCast]
    exact pow_le_pow_left₀ (by norm_num) (by norm_num) n
  have htwo : (2 : ℚ) ^ (n : ℤ) < 2 ^ (1024 : ℤ) :=
    (hpow.trans (le_mul_of_one_le_left (by positivity) hc1)).trans_lt (hv.lt_of_greatest hx)
  exact hge ((zpow_lt_zpow_iff_right₀ one_lt_two).mp htwo)

/-- They have no small power of ten. -/
theorem Covers.lt_power (hx : x.Canonical) {c : ℕ} {g : ℤ} (hv : x.Covers (c * 10 ^ g)) :
    -1076 < (c.log2 : ℤ) + 1 + g ∨ 0 ≤ g := by
  by_cases hg : 0 ≤ g
  · exact .inr hg
  · left
    obtain ⟨n, hn⟩ := Int.eq_ofNat_of_zero_le (by omega : 0 ≤ -g)
    have hpow : (10 : ℚ) ^ g ≤ 2 ^ g := by
      rw [← neg_neg g, hn, zpow_neg, zpow_neg, zpow_natCast, zpow_natCast]
      exact inv_anti₀ (by positivity) (pow_le_pow_left₀ (by norm_num) (by norm_num) n)
    have hlog : (c : ℚ) < 2 ^ (c.log2 + 1) := by exact_mod_cast Nat.lt_log2_self (n := c)
    have hp : (0 : ℚ) < 10 ^ g := by positivity
    have htwo : (2 : ℚ) ^ (-1076 : ℤ) < 2 ^ (((c.log2 + 1 : ℕ) : ℤ) + g) := by
      have hlow := hv.lt_of_least hx
      rw [zpow_add₀ two_ne_zero, zpow_natCast]
      nlinarith
    have hexponent := (zpow_lt_zpow_iff_right₀ one_lt_two).mp htwo
    push_cast at hexponent
    exact hexponent

/-- **A decimal number in the interval of a double is read as this double.** -/
theorem Covers.ofScientific (hx : x.Canonical) {c : ℕ} {g : ℤ} (hc : c ≠ 0)
    (hv : x.Covers (c * 10 ^ g)) :
    UnpackedFloat.ofScientific .binary64 c g =
      .finite .positive x.significand x.exponent hx.pos := by
  -- the power of ten is formed
  have hlimit : (2 : ℤ) ^ Format.binary64.exponentBits = 2048 := by decide
  have hlt := hv.power_lt hx hc
  have hgt := hv.lt_power hx
  have hbig : ¬ g > 2 ^ Format.binary64.exponentBits := by omega
  have hsmall : ¬ g < -((2 ^ Format.binary64.exponentBits : ℤ) + c.log2) := by omega
  unfold UnpackedFloat.ofScientific
  rw [dif_neg hc, if_neg hbig, if_neg hsmall]
  split
  · rename_i hg
    refine Covers.mul (s := .positive) (r := .positive) hx ?_ ?_
    · have hvalue : (((c <<< Format.binary64.mantissaBits : ℕ) : ℚ) * ((10 ^ g.toNat : ℕ) : ℚ) *
          2 ^ (-(Format.binary64.mantissaBits : ℤ) + 0)) = c * 10 ^ g := by
        have hten : ((10 ^ g.toNat : ℕ) : ℚ) = 10 ^ g := by
          rw [Nat.cast_pow, ← zpow_natCast, Int.toNat_of_nonneg hg]
          norm_num
        rw [hten, Nat.shiftLeft_eq, add_zero, zpow_neg, zpow_natCast]
        push_cast
        field_simp
      rwa [hvalue]
    · rw [Nat.shiftLeft_eq]
      have hbits : Format.binary64.mantissaBits = 53 := by decide
      have hten : 0 < 10 ^ g.toNat := by positivity
      rw [hbits]
      nlinarith [Nat.one_le_iff_ne_zero.mpr hc]
  · rename_i hg
    refine Covers.div (s := .positive) (r := .positive) hx ?_
    have hvalue : ((c : ℚ) * 2 ^ (0 : ℤ) / (((10 ^ (-g).toNat : ℕ) : ℚ) * 2 ^ (0 : ℤ))) =
        c * 10 ^ g := by
      have hten : ((10 ^ (-g).toNat : ℕ) : ℚ) = (10 ^ g)⁻¹ := by
        rw [Nat.cast_pow, ← zpow_natCast, Int.toNat_of_nonneg (by omega), zpow_neg]
        norm_num
      rw [hten, zpow_zero, mul_one, mul_one, div_inv_eq_mul]
    rwa [hvalue]

end Binary

end FlatModel.Decimal
