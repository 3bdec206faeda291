import Mathlib
import FlatModel.Decimal.Layout
import FlatModel.Proofs.DoubleReading

/-!
# The fewest digits read back

* `Binary.bestOn_spec`, `Binary.covers_of_inside`, `Binary.inside_below` — what is found on a grid is
  in the interval of the double, and something is found on every grid that is fine enough.
* `Binary.covers_shortest` — the shortest decimal is in the interval: the search ends on such a grid
  at the latest.
* `Layout.toFloat_numeral` — the numeral of a finite double reads back as the same double, in every
  layout.
-/

namespace FlatModel.Decimal

open Float.Model Float.Model.UnpackedFloat

/-! ## Powers of ten and two -/

/-- A power of ten between powers of two: `10 ^ 3` is below `2 ^ 10`, and `10 ^ 28` above
`2 ^ 93`. -/
theorem ten_zpow_le_two_zpow {g k : ℤ} (h : 0 ≤ g ∧ 10 * g ≤ 3 * k ∨ g ≤ 0 ∧ 93 * g ≤ 28 * k) :
    (10 : ℚ) ^ g ≤ 2 ^ k := by
  rcases h with ⟨hg, h⟩ | ⟨hg, h⟩
  · obtain ⟨a, rfl⟩ := Int.eq_ofNat_of_zero_le hg
    obtain ⟨b, rfl⟩ := Int.eq_ofNat_of_zero_le (by omega : 0 ≤ k)
    have hpow : (10 ^ a) ^ 3 ≤ (2 ^ b) ^ 3 := by
      calc (10 ^ a) ^ 3 = (10 ^ 3) ^ a := by rw [← pow_mul, ← pow_mul, Nat.mul_comm]
        _ ≤ (2 ^ 10) ^ a := Nat.pow_le_pow_left (by norm_num) a
        _ = 2 ^ (10 * a) := (pow_mul 2 10 a).symm
        _ ≤ 2 ^ (b * 3) := Nat.pow_le_pow_right two_pos (by omega)
        _ = (2 ^ b) ^ 3 := pow_mul 2 b 3
    have hle : 10 ^ a ≤ 2 ^ b := (Nat.pow_le_pow_iff_left (by norm_num)).mp hpow
    rw [zpow_natCast, zpow_natCast]
    exact_mod_cast hle
  · obtain ⟨a, ha⟩ := Int.eq_ofNat_of_zero_le (Int.neg_nonneg.mpr hg)
    rcases le_total 0 k with hk | hk
    · calc (10 : ℚ) ^ g ≤ 1 := zpow_le_one_of_nonpos₀ (by norm_num) hg
        _ ≤ 2 ^ k := one_le_zpow₀ one_le_two hk
    obtain ⟨b, hb⟩ := Int.eq_ofNat_of_zero_le (Int.neg_nonneg.mpr hk)
    have hpow : (2 ^ b) ^ 93 ≤ (10 ^ a) ^ 93 := by
      calc (2 ^ b) ^ 93 = (2 ^ 93) ^ b := by rw [← pow_mul, ← pow_mul, Nat.mul_comm]
        _ ≤ (10 ^ 28) ^ b := Nat.pow_le_pow_left (by norm_num) b
        _ = 10 ^ (28 * b) := (pow_mul 10 28 b).symm
        _ ≤ 10 ^ (a * 93) := Nat.pow_le_pow_right (by norm_num) (by omega)
        _ = (10 ^ a) ^ 93 := pow_mul 10 a 93
    have hle : 2 ^ b ≤ 10 ^ a := (Nat.pow_le_pow_iff_left (by norm_num)).mp hpow
    have hg' : g = -(a : ℤ) := by omega
    have hk' : k = -(b : ℤ) := by omega
    rw [hg', hk', zpow_neg, zpow_neg, zpow_natCast, zpow_natCast]
    exact inv_anti₀ (by positivity) (by exact_mod_cast hle)

/-- The positive part of an exponent is the exponent and the negative part. -/
theorem zpow_mul_pow_toNat_neg {a : ℚ} (ha : a ≠ 0) (n : ℤ) :
    a ^ n * a ^ (-n).toNat = a ^ n.toNat := by
  rw [← zpow_natCast, ← zpow_natCast, ← zpow_add₀ ha]
  congr 1
  omega

namespace Binary

variable {x : Binary} {tie : Tie} {g : ℤ} {c : ℕ}

/-! ## Grids -/

/-- A quarter of the last place of the double, in the unit in which grids are compared. -/
def unit (x : Binary) (g : ℤ) : ℕ := 2 ^ (x.exponent - 2).toNat * 10 ^ (-g).toNat

/-- A step of the grid in the same unit. -/
def step (x : Binary) (g : ℤ) : ℕ := 2 ^ (-(x.exponent - 2)).toNat * 10 ^ g.toNat

/-- The unit in which grids are compared. -/
theorem exists_ratio (x : Binary) (g : ℤ) : ∃ r : ℚ, 0 < r ∧
    (x.unit g : ℚ) = 2 ^ (x.exponent - 2) * r ∧ (x.step g : ℚ) = 10 ^ g * r := by
  refine ⟨2 ^ (-(x.exponent - 2)).toNat * 10 ^ (-g).toNat, by positivity, ?_, ?_⟩
  · rw [unit, ← mul_assoc, zpow_mul_pow_toNat_neg two_ne_zero]
    push_cast
    ring
  · rw [step]
    push_cast
    rw [← zpow_mul_pow_toNat_neg (a := 10) (by norm_num) g]
    ring

/-- The unit and the step are positive. -/
theorem step_pos (x : Binary) (g : ℤ) : 0 < x.step g := by
  unfold step
  positivity

/-- A multiple of the step is within the ends. -/
def Inside (x : Binary) (g : ℤ) (k : ℕ) : Prop :=
  x.within (x.lower * x.unit g) (k * x.step g) (x.upper * x.unit g) = true

/-- The multiple of the step below the double. -/
def below (x : Binary) (g : ℤ) : ℕ := x.quarters * x.unit g / x.step g

/-- What is found on a grid is within the ends, and the multiple below the double is not if nothing is
found. -/
theorem bestOn_spec (x : Binary) (tie : Tie) (g : ℤ) :
    (∀ c, x.bestOn tie g = some c → x.Inside g c) ∧
      (x.bestOn tie g = none → ¬ x.Inside g (x.below g)) := by
  unfold bestOn
  dsimp only
  split
  · rename_i hbelow
    split
    · rename_i habove
      constructor
      · intro c hc
        split at hc
        · cases hc
          exact hbelow
        · split at hc
          · cases hc
            exact habove
          · cases tie with
            | away =>
                cases hc
                exact habove
            | even =>
                dsimp only at hc
                split at hc
                · cases hc
                  exact hbelow
                · cases hc
                  exact habove
      · intro hnone
        split at hnone
        · cases hnone
        · split at hnone
          · cases hnone
          · cases tie with
            | away => cases hnone
            | even =>
                dsimp only at hnone
                split at hnone <;> cases hnone
    · refine ⟨fun c hc => ?_, nofun⟩
      cases hc
      exact hbelow
  · rename_i hbelow
    split
    · rename_i habove
      refine ⟨fun c hc => ?_, nofun⟩
      cases hc
      exact habove
    · exact ⟨nofun, fun _ => hbelow⟩

/-- **What is within the ends on a grid is in the interval of the double.** -/
theorem covers_of_inside (h : x.Inside g c) : x.Covers (c * 10 ^ g) := by
  obtain ⟨r, hr, hunit, hstep⟩ := x.exists_ratio g
  -- numbers compare as their multiples of the unit
  have hlower : (x.lower * 2 ^ (x.exponent - 2) : ℚ) = (x.lower * x.unit g : ℕ) / r := by
    rw [Nat.cast_mul, hunit]
    field_simp
  have hupper : (x.upper * 2 ^ (x.exponent - 2) : ℚ) = (x.upper * x.unit g : ℕ) / r := by
    rw [Nat.cast_mul, hunit]
    field_simp
  have hpoint : (c * 10 ^ g : ℚ) = (c * x.step g : ℕ) / r := by
    rw [Nat.cast_mul, hstep]
    field_simp
  unfold Inside within at h
  by_cases heven : x.significand % 2 = 0
  · rw [if_pos heven, Bool.and_eq_true, decide_eq_true_iff, decide_eq_true_iff] at h
    constructor
    · rw [hlower, hpoint, div_le_div_iff_of_pos_right hr]
      exact_mod_cast h.1
    · rw [hupper, hpoint, div_le_div_iff_of_pos_right hr]
      exact_mod_cast h.2
    · intro hodd
      omega
  · rw [if_neg heven, Bool.and_eq_true, decide_eq_true_iff, decide_eq_true_iff] at h
    have hlow : (x.lower * 2 ^ (x.exponent - 2) : ℚ) < c * 10 ^ g := by
      rw [hlower, hpoint, div_lt_div_iff_of_pos_right hr]
      exact_mod_cast h.1
    have hhigh : (c * 10 ^ g : ℚ) < x.upper * 2 ^ (x.exponent - 2) := by
      rw [hupper, hpoint, div_lt_div_iff_of_pos_right hr]
      exact_mod_cast h.2
    exact ⟨hlow.le, hhigh.le, fun _ => ⟨hlow.ne, hhigh.ne⟩⟩

/-- **A grid that is not coarser than a quarter of the last place has a multiple within the ends.** -/
theorem inside_below (hx : x.Canonical) (hg : (10 : ℚ) ^ g ≤ 2 ^ (x.exponent - 2)) :
    x.Inside g (x.below g) := by
  obtain ⟨r, hr, hunit, hstep⟩ := x.exists_ratio g
  have hfine : x.step g ≤ x.unit g := by
    have h : (x.step g : ℚ) ≤ x.unit g := by
      rw [hunit, hstep]
      exact mul_le_mul_of_nonneg_right hg hr.le
    exact_mod_cast h
  have hpos := x.step_pos g
  have hsig := hx.pos
  -- the multiple below the double is less than a step away from it
  have hle : x.below g * x.step g ≤ x.quarters * x.unit g := Nat.div_mul_le_self _ _
  have hlt : x.quarters * x.unit g < x.below g * x.step g + x.step g := Nat.lt_div_mul_add hpos
  have hlower : x.lower * x.unit g + x.unit g ≤ x.quarters * x.unit g := by
    have h : x.lower + 1 ≤ x.quarters := by
      unfold lower quarters
      split <;> omega
    calc x.lower * x.unit g + x.unit g = (x.lower + 1) * x.unit g := by ring
      _ ≤ x.quarters * x.unit g := Nat.mul_le_mul_right _ h
  have hupper : x.quarters * x.unit g + x.unit g ≤ x.upper * x.unit g := by
    calc x.quarters * x.unit g + x.unit g = (x.quarters + 1) * x.unit g := by ring
      _ ≤ x.upper * x.unit g := Nat.mul_le_mul_right _ (by unfold upper; omega)
  unfold Inside within
  split <;> rw [Bool.and_eq_true, decide_eq_true_iff, decide_eq_true_iff] <;> omega

/-! ## The search -/

/-- A search that gets to a grid that is fine enough ends in the interval. -/
theorem covers_searchFrom (hx : x.Canonical) : ∀ {fuel : ℕ} {g : ℤ}, 0 < fuel →
    (10 : ℚ) ^ (g + 1 - fuel) ≤ 2 ^ (x.exponent - 2) →
      x.Covers ((x.searchFrom tie fuel g).coefficient * 10 ^ (x.searchFrom tie fuel g).exponent)
  | fuel + 1, g, _, h => by
      unfold searchFrom
      rcases hbest : x.bestOn tie g with _ | c
      · have hfuel : 0 < fuel := by
          rcases Nat.eq_zero_or_pos fuel with rfl | hfuel
          · exact absurd (inside_below hx (by simpa using h)) ((x.bestOn_spec tie g).2 hbest)
          · exact hfuel
        refine covers_searchFrom hx hfuel ?_
        have hstep : g - 1 + 1 - (fuel : ℤ) = g + 1 - ((fuel + 1 : ℕ) : ℤ) := by
          push_cast
          ring
        rwa [hstep]
      · exact covers_of_inside ((x.bestOn_spec tie g).1 c hbest)

/-- **The shortest decimal is in the interval of the double.** -/
theorem covers_shortest (hx : x.Canonical) (tie : Tie) :
    x.Covers ((x.shortest tie).coefficient * 10 ^ (x.shortest tie).exponent) := by
  refine covers_searchFrom hx (by norm_num) (ten_zpow_le_two_zpow ?_)
  have hlog : x.significand.log2 < 53 := (Nat.log2_lt hx.pos.ne').mpr hx.lt
  have hleast := hx.least
  have hgreatest := hx.greatest
  unfold firstGrid
  omega

end Binary

/-! ## Numerals -/

namespace Numeral

variable {n : Numeral} {x : Binary}

/-- The number that a numeral stands for, without its sign. -/
def absValue (n : Numeral) : ℚ := n.coefficient * 10 ^ n.scale

/-- The first digit of a number bounds it from below. -/
theorem le_absValue (h : n.coefficient ≠ 0) :
    (10 : ℚ) ^ ((Nat.toDigits 10 n.coefficient).length + n.scale - 1) ≤ n.absValue := by
  have hpos : 0 < (Nat.toDigits 10 n.coefficient).length := Nat.length_toDigits_pos
  have hdigits : 10 ^ ((Nat.toDigits 10 n.coefficient).length - 1) ≤ n.coefficient := by
    rcases Nat.lt_or_ge 1 (Nat.toDigits 10 n.coefficient).length with hlen | hlen
    · by_contra hlt
      have hle := (Nat.length_toDigits_le_iff (by norm_num : 1 < 10) (by omega)).mpr (not_le.mp hlt)
      omega
    · rw [show (Nat.toDigits 10 n.coefficient).length - 1 = 0 by omega, pow_zero]
      omega
  have hsplit : ((Nat.toDigits 10 n.coefficient).length : ℤ) + n.scale - 1 =
      ((Nat.toDigits 10 n.coefficient).length - 1 : ℕ) + n.scale := by omega
  rw [hsplit, zpow_add₀ (by norm_num), zpow_natCast]
  exact mul_le_mul_of_nonneg_right (by exact_mod_cast hdigits) (by positivity)

/-- The number of digits bounds it from above. -/
theorem absValue_lt : n.absValue < (10 : ℚ) ^ ((Nat.toDigits 10 n.coefficient).length + n.scale) := by
  have hdigits : n.coefficient < 10 ^ (Nat.toDigits 10 n.coefficient).length :=
    (Nat.length_toDigits_le_iff (by norm_num) Nat.length_toDigits_pos).mp le_rfl
  rw [zpow_add₀ (by norm_num), zpow_natCast]
  exact mul_lt_mul_of_pos_right (by exact_mod_cast hdigits) (by positivity)

/-- **A numeral in the interval of a double has this double as its magnitude.** -/
theorem magnitude_eq (hx : x.Canonical) (hv : x.Covers n.absValue) :
    n.magnitude = .ofModel (.pack (.finite .positive x.significand x.exponent hx.pos)) := by
  have hlow := hv.lt_of_least hx
  have hhigh := hv.lt_of_greatest hx
  have hcoefficient : n.coefficient ≠ 0 := by
    intro h0
    rw [absValue, h0, Nat.cast_zero, zero_mul] at hlow
    exact absurd hlow (not_lt.mpr (by positivity))
  have hbig : ¬ 310 < ((Nat.toDigits 10 n.coefficient).length : ℤ) + n.scale := by
    intro h
    have hten : (2 : ℚ) ^ (1024 : ℤ) ≤ 10 ^ (310 : ℤ) := by
      have h := ten_zpow_le_two_zpow (g := -310) (k := -1024) (.inr ⟨by norm_num, by norm_num⟩)
      rw [zpow_neg, zpow_neg] at h
      exact (inv_le_inv₀ (by positivity) (by positivity)).mp h
    have hle : (10 : ℚ) ^ (310 : ℤ) ≤ 10 ^ ((Nat.toDigits 10 n.coefficient).length + n.scale - 1) :=
      zpow_le_zpow_right₀ (by norm_num) (by omega)
    exact absurd (hten.trans (hle.trans (le_absValue hcoefficient))) (not_le.mpr hhigh)
  have hsmall : ¬ ((Nat.toDigits 10 n.coefficient).length : ℤ) + n.scale < -330 := by
    intro h
    have hten : (10 : ℚ) ^ (-330 : ℤ) ≤ 2 ^ (-1076 : ℤ) :=
      ten_zpow_le_two_zpow (.inr ⟨by norm_num, by norm_num⟩)
    have hle : (10 : ℚ) ^ ((Nat.toDigits 10 n.coefficient).length + n.scale) ≤ 10 ^ (-330 : ℤ) :=
      zpow_le_zpow_right₀ (by norm_num) h.le
    exact absurd (absValue_lt.le.trans (hle.trans hten)) (not_le.mpr hlow)
  unfold magnitude
  dsimp only
  rw [if_neg hcoefficient, if_neg hbig, if_neg hsmall]
  exact Double.ofScientific_eq hx hcoefficient hv

end Numeral

namespace Layout

variable {l : Layout} {negative : Bool} {d : Scaled} {x : Float}

/-- A decimal keeps its value in positional notation. -/
theorem absValue_positional :
    (l.positional negative d).absValue = d.coefficient * 10 ^ d.exponent := by
  unfold positional
  split
  · rename_i hexponent
    have hten : (10 : ℚ) ^ d.exponent = 10 ^ d.exponent.toNat := by
      rw [← zpow_natCast, Int.toNat_of_nonneg hexponent]
    dsimp only
    split
    · simp only [Numeral.absValue, Numeral.scale, Option.getD_none, hten]
      push_cast
      norm_num
      ring
    · simp only [Numeral.absValue, Numeral.scale, Option.getD_none, hten]
      push_cast
      norm_num
  · rename_i hexponent
    simp only [Numeral.absValue, Numeral.scale, Option.getD_none]
    congr 2
    omega

/-- A decimal keeps its value in scientific notation. -/
theorem absValue_scientific :
    (scientific negative d).absValue = d.coefficient * 10 ^ d.exponent := by
  simp only [scientific, Numeral.absValue, Numeral.scale, Option.getD_some]
  congr 2
  omega

/-- A double is put together from its parts. -/
theorem ofModel_pack_unpack (x : Float) : Float.ofModel (.pack x.toModel.unpack) = x :=
  Float.ofBits_toBits x

/-- The sign of a decimal stays in positional notation. -/
theorem negative_positional : (l.positional negative d).negative = negative := by
  unfold positional
  split
  · dsimp only
    split <;> rfl
  · rfl

/-- The double zero. -/
theorem zero_eq : (0.0 : Float) = .ofModel (.pack (.zero .positive)) :=
  Float.toBits_inj.mp (by decide +kernel)

/-- A double whose magnitude and sign are those of a numeral is the value of the numeral. -/
theorem toFloat_eq {n : Numeral} {u : UnpackedFloat} (hu : (Float.Model.pack u).unpack = u)
    (hmagnitude : n.magnitude = .ofModel (.pack u))
    (hnegative : n.negative = (Double.sign x == .negative))
    (hx : x.toModel.unpack = if Double.sign x == .negative then u.neg else u) : n.toFloat = x := by
  rw [← ofModel_pack_unpack x, hx, Numeral.toFloat, hnegative, hmagnitude]
  cases Double.sign x with
  | negative =>
      show Float.ofModel (.pack (Float.Model.pack u).unpack.neg) = _
      rw [hu]
      rfl
  | positive => rfl

/-- **A numeral in the interval of a double is read as this double**, if it has its sign. -/
theorem toFloat_of_covers {n : Numeral} {b : Binary} (hb : b.Canonical) (hv : b.Covers n.absValue)
    (hnegative : n.negative = (Double.sign x == .negative))
    (hx : x.toModel.unpack = .finite (Double.sign x) b.significand b.exponent hb.pos) :
    n.toFloat = x := by
  refine toFloat_eq (hb.unpack_pack .positive) (Numeral.magnitude_eq hb hv) hnegative ?_
  rw [hx]
  cases Double.sign x <;> rfl

/-- **The numeral of a finite double reads back as the same double**, in every layout. -/
theorem toFloat_numeral (l : Layout) (hx : x.isFinite = true) : (l.numeral x).toFloat = x := by
  have hzero : (Float.Model.pack (.zero .positive)).unpack = .zero .positive := unpack_packedZero
  have hequal : (x == 0.0) = (x.toModel.unpack.beq (.zero .positive)) := by
    rw [zero_eq]
    show x.toModel.unpack.beq (Float.Model.pack (.zero .positive)).unpack = _
    rw [hzero]
  unfold numeral
  rw [Double.negative_eq, hequal]
  dsimp only
  rcases Double.unpack_eq hx with hunpack | ⟨hb, hunpack⟩
  · have heq : x.toModel.unpack.beq (.zero .positive) = true := by
      rw [hunpack]
      rfl
    rw [if_pos heq]
    refine toFloat_eq hzero ?_ negative_positional ?_
    · have hcoefficient : (l.positional (Double.sign x == .negative) ⟨0, 0⟩).coefficient = 0 := by
        unfold positional
        rw [if_pos le_rfl]
        dsimp only
        split <;> simp
      rw [← zero_eq]
      exact if_pos hcoefficient
    · rw [hunpack]
      cases Double.sign x <;> rfl
  · have hne : x.toModel.unpack.beq (.zero .positive) = false := by
      rw [hunpack]
      cases Double.sign x <;> rfl
    rw [if_neg (Bool.eq_false_iff.mp hne)]
    have hcovers := Binary.covers_shortest hb l.tie
    split
    · refine toFloat_of_covers hb ?_ negative_positional hunpack
      rwa [absValue_positional]
    · refine toFloat_of_covers hb ?_ rfl hunpack
      rwa [absValue_scientific]

end Layout

end FlatModel.Decimal
