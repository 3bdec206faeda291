import FlatModel.Decimal.Layout
import FlatModel.Decimal.MachineWord
import FlatModel.Proofs.DoubleSigns
import FlatModel.Proofs.JsonTokens

/-!
# Short numerals over a machine word

A numeral of at most fifteen digits near the point is read exactly over a machine word: its digits and
the power of ten are doubles, so that only their product or quotient is rounded.

* `absorb_eq`, `Numeral.machineWord_eq` — digits that fit the word are all taken.
* `powerOfTen_eq`, `scaleZero` — the powers of ten that are doubles.
* `Numeral.machineFloat?_eq` — a short numeral is read as the nearest double.
* `Layout.machineFloat?_numeral` — so a double with a short numeral is read back.
-/

namespace FlatModel.Decimal

/-! ## Digits -/

/-- Further digits make a number no smaller. -/
theorem le_ofDigitChars (word : Nat) (ds : List Char) : word ≤ Nat.ofDigitChars 10 ds word := by
  rw [Nat.ofDigitChars_eq_ofDigitChars_zero]
  have hpos : 0 < 10 ^ ds.length := Nat.pow_pos (by decide)
  exact Nat.le_add_right_of_le (Nat.le_mul_of_pos_left word hpos)

/-- Digits that fit the word are all taken. -/
theorem absorb_eq {word : Nat} {ds : List Char} (h : Nat.ofDigitChars 10 ds word < UInt64.size) :
    absorb word ds = (Nat.ofDigitChars 10 ds word, 0) := by
  induction ds generalizing word with
  | nil => rfl
  | cons c rest ih =>
      rw [Nat.ofDigitChars_cons] at h ⊢
      have hnext : 10 * word + (c.toNat - '0'.toNat) < UInt64.size :=
        Nat.lt_of_le_of_lt (le_ofDigitChars _ rest) h
      rw [absorb, if_pos hnext, ih h]

/-- **A coefficient that fits the word is taken whole.** -/
theorem Numeral.machineWord_eq {n : Numeral} (h : n.coefficient < UInt64.size) :
    n.machineWord = ⟨n.coefficient, n.scale⟩ := by
  have hall : Nat.ofDigitChars 10 n.fractionDigits (Nat.ofDigitChars 10 n.wholeDigits 0) =
      n.coefficient := by
    rw [← Nat.ofDigitChars_append, wholeDigits_append]
    exact n.digitsValue_digits
  have hwhole : Nat.ofDigitChars 10 n.wholeDigits 0 < UInt64.size := by
    have hle := le_ofDigitChars (Nat.ofDigitChars 10 n.wholeDigits 0) n.fractionDigits
    exact Nat.lt_of_le_of_lt (hle.trans_eq hall) h
  rw [machineWord, absorb_eq hwhole]
  dsimp only
  rw [absorb_eq (hall.symm ▸ h), hall]
  simp [scale]

/-! ## Powers of ten -/

/-- The powers of ten up to the twenty-second are doubles. -/
theorem powerOfTen_eq {k : Nat} (h : k < 23) :
    powerOfTen k = Float.exactlyRepresentablePowersOfTen[k] := by
  have hall : ∀ k : Fin 23, powerOfTen k = Float.exactlyRepresentablePowersOfTen[k] := by
    decide +kernel
  exact hall ⟨k, h⟩

/-- Zero times such a power, or divided by it, is zero. -/
theorem scaleZero {k : Nat} (h : k < 23) :
    (0 : Nat).toUInt64.toFloat * powerOfTen k = 0.0 ∧
      (0 : Nat).toUInt64.toFloat / powerOfTen k = 0.0 := by
  have hall : ∀ k : Fin 23, (0 : Nat).toUInt64.toFloat * powerOfTen k = 0.0 ∧
      (0 : Nat).toUInt64.toFloat / powerOfTen k = 0.0 := by
    decide +kernel
  exact hall ⟨k, h⟩

/-! ## Short numerals -/

namespace Numeral

variable {n : Numeral}

/-- The magnitude of a short numeral: its digits times a power of ten, or divided by it. -/
theorem magnitude_short (hdigits : n.coefficient < 2 ^ 53) (hscale : n.scale.natAbs < 23) :
    n.magnitude = if n.scale < 0 then n.coefficient.toUInt64.toFloat / powerOfTen n.scale.natAbs
      else n.coefficient.toUInt64.toFloat * powerOfTen n.scale.natAbs := by
  have hlength : (Nat.toDigits 10 n.coefficient).length ≤ 16 :=
    (Nat.length_toDigits_le_iff (by decide) (by decide)).mpr (hdigits.trans (by decide))
  unfold magnitude
  by_cases hzero : n.coefficient = 0
  · rw [if_pos hzero, hzero, (scaleZero hscale).1, (scaleZero hscale).2, ite_self]
  · dsimp only
    rw [if_neg hzero, if_neg (by omega), if_neg (by omega), Float.ofScientific,
      dif_pos ⟨hdigits, by omega⟩, powerOfTen_eq hscale]
    by_cases hneg : n.scale < 0
    · rw [decide_eq_true hneg, if_pos hneg]
      rfl
    · rw [decide_eq_false hneg, if_neg hneg]
      rfl

/-- **A short numeral is read as the nearest double.** -/
theorem machineFloat?_eq (hdigits : n.coefficient < 2 ^ 53) (hscale : n.scale.natAbs < 23)
    (hfinite : n.magnitude.isInf = false) : n.machineFloat? = some n.toFloat := by
  have hword : n.coefficient < UInt64.size := hdigits.trans (by decide)
  have hmagnitude := magnitude_short hdigits hscale
  rw [machineFloat?, machineWord_eq hword, Scaled.double?, toFloat]
  dsimp only
  by_cases hneg : n.scale < 0
  · rw [if_pos hneg] at hmagnitude ⊢
    rw [scaleDown, dif_pos (by omega), ← hmagnitude]
    rfl
  · rw [if_neg hneg] at hmagnitude ⊢
    rw [if_pos (by omega), ← hmagnitude, hfinite]
    rfl

/-- The magnitude is finite if the double is. -/
theorem isFinite_magnitude (h : n.toFloat.isFinite = true) :
    n.magnitude.isFinite = true := by
  rw [toFloat] at h
  split at h
  · rw [← Double.neg_neg n.magnitude]
    exact Double.isFinite_neg h
  · exact h

end Numeral

/-- **A double with a short numeral is read back.** -/
theorem Layout.machineFloat?_numeral {x : Float} (l : Layout) (hx : x.isFinite = true)
    (hdigits : (l.numeral x).coefficient < 2 ^ 53) (hscale : (l.numeral x).scale.natAbs < 23) :
    (l.numeral x).machineFloat? = some x := by
  have hread := l.toFloat_numeral hx
  have hmagnitude := Numeral.isFinite_magnitude (hread.symm ▸ hx)
  rw [Numeral.machineFloat?_eq hdigits hscale (Double.kind_of_isFinite hmagnitude).2, hread]

end FlatModel.Decimal
