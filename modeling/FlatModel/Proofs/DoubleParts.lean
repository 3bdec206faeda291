import Mathlib
import FlatModel.Proofs.NearestDouble

/-!
# Doubles and their parts

* `Double.sign`, `Double.negative_eq` — the sign of a double and the bit that holds it.
* `Double.unpack_eq` — a finite double is a zero or the canonical number that its bits hold.
* `Binary.Canonical.unpack_pack` — a canonical number is held by the bits that it is packed into.
-/

namespace FlatModel.Decimal

open Float.Model Float.Model.UnpackedFloat

namespace Double

variable {x : Float}

/-- A finite double is a number, and no infinity. -/
theorem kind_of_isFinite (hx : x.isFinite = true) : x.isNaN = false ∧ x.isInf = false := by
  unfold Float.isFinite Float.Model.isFinite at hx
  unfold Float.isNaN Float.Model.isNaN Float.isInf Float.Model.isInf
  cases hunpack : x.toModel.unpack <;> rw [hunpack] at hx <;> cases hx <;> exact ⟨rfl, rfl⟩

/-- The sign of a double. -/
def sign (x : Float) : Sign := .ofBitVec (@unpackSign .binary64 x.toBits.toBitVec)

/-- The sign is the first bit. -/
theorem negative_eq (x : Float) : (x.toBits >>> 63 == 1) = (sign x == .negative) := by
  have hsign : (@unpackSign .binary64 x.toBits.toBitVec).toNat = (x.toBits >>> 63).toNat := by
    rw [unpackSign_def, BitVec.extractLsb'_toNat]
    show x.toBits.toNat >>> 63 % 2 ^ 1 = x.toBits.toNat >>> 63
    have hlt := x.toBits.toNat_lt
    rw [Nat.shiftRight_eq_div_pow]
    omega
  have hlt := (@unpackSign .binary64 x.toBits.toBitVec).isLt
  unfold sign Sign.ofBitVec
  by_cases h : @unpackSign .binary64 x.toBits.toBitVec = 0#1
  · have hzero : x.toBits >>> 63 = 0 := by
      rw [h] at hsign
      exact UInt64.toNat_inj.mp hsign.symm
    rw [if_pos h, hzero]
    rfl
  · have hone : x.toBits >>> 63 = 1 := by
      have hne : (@unpackSign .binary64 x.toBits.toBitVec).toNat ≠ 0 := fun h0 =>
        h (BitVec.eq_of_toNat_eq h0)
      have h1 : (x.toBits >>> 63).toNat = 1 := by omega
      exact UInt64.toNat_inj.mp h1
    rw [if_neg h, hone]
    rfl

/-- The bits of the significand, as a number. -/
theorem toNat_unpackMantissa (bits : UInt64) :
    (@unpackMantissa .binary64 bits.toBitVec).toNat = (bits &&& 0xfffffffffffff).toNat := by
  rw [unpackMantissa_def, BitVec.extractLsb'_toNat]
  show bits.toNat >>> 0 % 2 ^ 52 = _
  rw [UInt64.toNat_and]
  show _ = bits.toNat &&& (2 ^ 52 - 1)
  rw [Nat.and_two_pow_sub_one_eq_mod]
  rfl

/-- The bits of the exponent, as a number. -/
theorem toNat_unpackExponent (bits : UInt64) :
    (@unpackExponent .binary64 bits.toBitVec).toNat =
      ((bits >>> 52) &&& 0x7ff).toNat := by
  rw [unpackExponent_def, BitVec.extractLsb'_toNat]
  show bits.toNat >>> 52 % 2 ^ 11 = _
  rw [UInt64.toNat_and, UInt64.toNat_shiftRight]
  show _ = bits.toNat >>> 52 &&& (2 ^ 11 - 1)
  rw [Nat.and_two_pow_sub_one_eq_mod]

/-- A significand with its first bit. -/
theorem toNat_leadingBit (m : BitVec 52) : (1#1 ++ m).toNat = m.toNat + 0x10000000000000 := by
  rw [BitVec.toNat_append, ← Nat.shiftLeft_add_eq_or_of_lt m.isLt, Nat.add_comm]
  rfl

/-- The parts of a number with the least exponent. -/
theorem ofBits_of_field_eq {bits : UInt64} (h : ((bits >>> 52) &&& 0x7ff).toNat = 0) :
    Binary.ofBits bits = ⟨(bits &&& 0xfffffffffffff).toNat, -1074, false⟩ := by
  rw [Binary.ofBits, if_pos h]

/-- The parts of a number with another exponent. -/
theorem ofBits_of_field_ne {bits : UInt64} (h : ((bits >>> 52) &&& 0x7ff).toNat ≠ 0) :
    Binary.ofBits bits = ⟨(bits &&& 0xfffffffffffff).toNat + 0x10000000000000,
      (((bits >>> 52) &&& 0x7ff).toNat : ℤ) - 1075,
      (bits &&& 0xfffffffffffff).toNat = 0 ∧ 1 < ((bits >>> 52) &&& 0x7ff).toNat⟩ := by
  rw [Binary.ofBits, if_neg h]

/-- A number with the least exponent is canonical. -/
theorem canonical_least {fraction : ℕ} (h0 : fraction ≠ 0) (h : fraction < 2 ^ 52) :
    (⟨fraction, -1074, false⟩ : Binary).Canonical where
  pos := Nat.pos_of_ne_zero h0
  lt := by
    show fraction < 2 ^ 53
    omega
  least := le_rfl
  greatest := by
    show (-1074 : ℤ) ≤ 971
    omega
  normal := .inr rfl
  nearerBelow := iff_of_false Bool.false_ne_true fun h => absurd h.2 (lt_irrefl _)

/-- A number with another exponent is canonical. -/
theorem canonical_normal {fraction field : ℕ} (h : fraction < 2 ^ 52) (h0 : field ≠ 0)
    (hfield : field < 2047) :
    (⟨fraction + 0x10000000000000, (field : ℤ) - 1075, fraction = 0 ∧ 1 < field⟩ :
      Binary).Canonical where
  pos := Nat.succ_pos _
  lt := by
    show fraction + 0x10000000000000 < 2 ^ 53
    omega
  least := by
    show (-1074 : ℤ) ≤ field - 1075
    omega
  greatest := by
    show (field : ℤ) - 1075 ≤ 971
    omega
  normal := .inl (by
    show 2 ^ 52 ≤ fraction + 0x10000000000000
    omega)
  nearerBelow := by
    show decide (fraction = 0 ∧ 1 < field) = true ↔
      fraction + 0x10000000000000 = 2 ^ 52 ∧ (-1074 : ℤ) < field - 1075
    rw [decide_eq_true_iff]
    omega

/-- **A finite double is a zero or the number that its bits hold.** -/
theorem unpack_eq (hx : x.isFinite = true) :
    x.toModel.unpack = .zero (sign x) ∨
      ∃ hb : (Binary.ofBits x.toBits).Canonical, x.toModel.unpack =
        .finite (sign x) (Binary.ofBits x.toBits).significand (Binary.ofBits x.toBits).exponent
          hb.pos := by
  have hfinite : (UnpackedFloat.unpack .binary64 x.toBits.toBitVec).isFinite = true := hx
  have hexponent := toNat_unpackExponent x.toBits
  have hmantissa := toNat_unpackMantissa x.toBits
  have hfraction := (@unpackMantissa .binary64 x.toBits.toBitVec).isLt
  have hfield := (@unpackExponent .binary64 x.toBits.toBitVec).isLt
  have hbias : (Format.binary64.exponentBias : ℤ) +
      Format.binary64.mantissaBitsWithoutImplicit = 1075 := by
    decide
  show UnpackedFloat.unpack .binary64 x.toBits.toBitVec = _ ∨
    ∃ hb, UnpackedFloat.unpack .binary64 x.toBits.toBitVec = _
  unfold UnpackedFloat.unpack at hfinite ⊢
  by_cases hspecial : @unpackExponent .binary64 x.toBits.toBitVec = -1#_
  · -- infinities and what is no number
    simp only [if_pos hspecial] at hfinite
    split at hfinite <;> cases hfinite
  simp only [if_neg hspecial, hbias]
  by_cases hleast : @unpackExponent .binary64 x.toBits.toBitVec = 0#_
  · have hfield0 : ((x.toBits >>> 52) &&& 0x7ff).toNat = 0 := by
      rw [← hexponent, hleast]
      rfl
    simp only [if_pos hleast]
    by_cases hzero : @unpackMantissa .binary64 x.toBits.toBitVec = 0#_
    · left
      rw [dif_pos hzero]
      rfl
    · right
      have hpos : (@unpackMantissa .binary64 x.toBits.toBitVec).toNat ≠ 0 := fun h0 =>
        hzero (BitVec.eq_of_toNat_eq h0)
      rw [ofBits_of_field_eq hfield0, ← hmantissa]
      refine ⟨canonical_least hpos hfraction, ?_⟩
      rw [dif_neg hzero, hleast]
      rfl
  · right
    have hfield0 : ((x.toBits >>> 52) &&& 0x7ff).toNat ≠ 0 := by
      rw [← hexponent]
      exact fun h0 => hleast (BitVec.eq_of_toNat_eq h0)
    have hfield1 : ((x.toBits >>> 52) &&& 0x7ff).toNat ≠ 2047 := by
      rw [← hexponent]
      exact fun h0 => hspecial (BitVec.eq_of_toNat_eq h0)
    rw [ofBits_of_field_ne hfield0, ← hmantissa]
    rw [hexponent] at hfield
    have hfield2 := lt_of_le_of_ne (Nat.le_of_lt_succ hfield) hfield1
    refine ⟨canonical_normal hfraction hfield0 hfield2, ?_⟩
    simp only [if_neg hleast, hexponent, toNat_leadingBit]
    rfl

end Double

/-! ## Packing -/

/-- What unpacking makes of parts with the least exponent. -/
theorem unpack_packComponents_least (s : Sign) {m : ℕ} (hpos : 0 < m) (hm : m < 2 ^ 52) :
    UnpackedFloat.unpack .binary64 (packComponents .binary64 s 0#_ (BitVec.ofNat _ m)) =
      .finite s m (-1074) hpos := by
  have htoNat : (BitVec.ofNat 52 m).toNat = m := by
    rw [BitVec.toNat_ofNat, Nat.mod_eq_of_lt hm]
  have hne : BitVec.ofNat 52 m ≠ 0#52 := fun h => by
    rw [h] at htoNat
    exact hpos.ne htoNat
  unfold UnpackedFloat.unpack
  simp only [unpackMantissa_packComponents, unpackExponent_packComponents,
    unpackSign_packComponents, Sign.ofBitVec_toBitVec]
  rw [if_neg (by decide), if_pos trivial, dif_neg hne]
  simp only [htoNat]
  rfl

/-- What unpacking makes of parts with another exponent. -/
theorem unpack_packComponents_normal (s : Sign) {m k : ℕ} (hpos : 0 < m) (hleast : 2 ^ 52 ≤ m)
    (hm : m < 2 ^ 53) (hk0 : k ≠ 0) (hk : k < 2047) :
    UnpackedFloat.unpack .binary64
        (packComponents .binary64 s (BitVec.ofNat _ k) (BitVec.ofNat _ m)) =
      .finite s m ((k : ℤ) - 1075) hpos := by
  have htoNat : (BitVec.ofNat 11 k).toNat = k := by
    rw [BitVec.toNat_ofNat]
    omega
  have hzero : BitVec.ofNat 11 k ≠ 0#11 := fun h => by
    rw [h] at htoNat
    exact hk0 htoNat.symm
  have hspecial : BitVec.ofNat 11 k ≠ -1#11 := fun h => by
    rw [h] at htoNat
    exact hk.ne htoNat.symm
  have hmantissa : (1#1 ++ BitVec.ofNat 52 m).toNat = m := by
    rw [Double.toNat_leadingBit, BitVec.toNat_ofNat]
    omega
  unfold UnpackedFloat.unpack
  simp only [unpackMantissa_packComponents, unpackExponent_packComponents,
    unpackSign_packComponents, Sign.ofBitVec_toBitVec]
  rw [if_neg hspecial, if_neg hzero]
  simp only [htoNat, hmantissa]
  rfl

/-- **A canonical number is held by the bits that it is packed into.** -/
theorem Binary.Canonical.unpack_pack {x : Binary} (hx : x.Canonical) (s : Sign) :
    (Float.Model.pack (.finite s x.significand x.exponent hx.pos)).unpack =
      .finite s x.significand x.exponent hx.pos := by
  have hleast := hx.least
  have hgreatest := hx.greatest
  obtain ⟨k, hk⟩ := Int.eq_ofNat_of_zero_le (by omega : 0 ≤ x.exponent + 1075)
  have hbiased : (x.exponent + Format.binary64.exponentBias +
      Format.binary64.mantissaBitsWithoutImplicit).toNat = k := by
    have hbias : (Format.binary64.exponentBias : ℤ) = 1023 := by decide
    rw [hbias]
    show (x.exponent + 1023 + 52).toNat = k
    omega
  have hrange : ¬ 2 ^ Format.binary64.exponentBits ≤ k + 1 := by
    show ¬ 2 ^ 11 ≤ k + 1
    omega
  have hlog : x.significand.log2 < 53 := (Nat.log2_lt hx.pos.ne').mpr hx.lt
  show UnpackedFloat.unpack .binary64 (UnpackedFloat.pack .binary64 _) = _
  unfold UnpackedFloat.pack
  simp only [hbiased, if_neg hrange]
  have hbits : Format.binary64.mantissaBits = 53 := by decide
  rw [hbits]
  by_cases hnormal : 2 ^ 52 ≤ x.significand
  · have h52 : 52 ≤ x.significand.log2 := (Nat.le_log2 hx.pos.ne').mpr hnormal
    have hexponent : (k : ℤ) - 1075 = x.exponent := by omega
    rw [if_pos (by omega),
      unpack_packComponents_normal s hx.pos hnormal hx.lt (by omega) (by omega)]
    simp only [hexponent]
  · have h52 : x.significand.log2 < 52 := (Nat.log2_lt hx.pos.ne').mpr (by omega)
    have hexponent := hx.normal.resolve_left hnormal
    rw [if_neg (by omega), unpack_packComponents_least s hx.pos (by omega)]
    simp only [hexponent]

end FlatModel.Decimal
