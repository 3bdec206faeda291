import FlatModel.Decimal.Numeral
import FlatModel.Decimal.Shortest

/-!
# Numerals read over a machine word

A fast way to read a numeral: its digits are taken into a machine word, which becomes a double and is
then multiplied or divided by a power of ten.  Both steps round, so a numeral with many digits may be
read as a neighbour of the nearest double, which is `Numeral.toFloat`.

* `Numeral.machineWord` — the digits that fit the word, and the power of ten that is left.
* `Scaled.double?` — the word times the power of ten, unless this is too large for a double.
* `Numeral.machineFloat?` — the double that is read.
-/

namespace FlatModel.Decimal

/-- Take digits into a word until the first one with which it would not fit.  The second part is the
number of digits that are left. -/
def absorb : Nat → List Char → Nat × Nat
  | word, [] => (word, 0)
  | word, c :: rest =>
      let next := 10 * word + (c.toNat - '0'.toNat)
      if next < UInt64.size then absorb next rest else (word, rest.length + 1)

/-- The digits of a numeral in a machine word.  Digits before the point that do not fit leave their
power of ten; the digits after the point go on from there, and those that do not fit are dropped. -/
def Numeral.machineWord (n : Numeral) : Scaled :=
  let whole := absorb 0 n.wholeDigits
  let all := absorb whole.1 n.fractionDigits
  ⟨all.1, n.exponent.getD 0 + whole.2 - (n.places - all.2 : Nat)⟩

/-- The double nearest to a power of ten. -/
def powerOfTen (k : Nat) : Float := Float.ofScientific 1 false k

/-- The quotient of a double by a power of ten.  The largest power is taken off as often as need be, so
that no power is too large for a double. -/
def scaleDown (f : Float) (k : Nat) : Float :=
  if _h : k ≤ 308 then f / powerOfTen k
  else if f == 0.0 then f
  else scaleDown (f / powerOfTen 308) (k - 308)
termination_by k
decreasing_by omega

/-- The double of a machine word times a power of ten, unless it is too large. -/
def Scaled.double? (d : Scaled) : Option Float :=
  let f := d.coefficient.toUInt64.toFloat
  if d.exponent < 0 then some (scaleDown f d.exponent.natAbs)
  else if d.exponent ≤ 308 then
    let product := f * powerOfTen d.exponent.natAbs
    if product.isInf then none else some product
  else if f == 0.0 then some f
  else none

/-- The double that a numeral is read as over a machine word, unless it is too large. -/
def Numeral.machineFloat? (n : Numeral) : Option Float :=
  n.machineWord.double?.map fun f => if n.negative then -f else f

end FlatModel.Decimal
