import FlatModel.Decimal.Numeral
import FlatModel.Decimal.Shortest

/-!
# Layouts of double-precision numbers

Every text of a double holds the fewest digits that read back.  Texts differ in where positional
notation ends, whether a whole number keeps `.0`, whether an exponent carries a plus sign, and
which of two equally near digit strings is taken.  A `Layout` records these four decisions.
-/

namespace FlatModel.Decimal

/-- How a double is written once its shortest digits are known. -/
structure Layout where
  /-- The least power of ten of a first digit that is written positionally; all if absent. -/
  least : Option Int
  /-- The greatest power of ten of a first digit that is written positionally; all if absent. -/
  greatest : Option Int
  /-- Whether a whole number in positional notation ends in `.0`. -/
  keepsFraction : Bool
  /-- Whether a non-negative exponent has a plus sign. -/
  marksPlus : Bool
  /-- Which of two equally near candidates is written. -/
  tie : Tie
  deriving DecidableEq, Repr

namespace Layout

/-- Whether a number whose first digit stands for `10 ^ e` is written without exponent. -/
def isPositional (l : Layout) (e : Int) : Bool :=
  l.least.all (· ≤ e) && l.greatest.all (e ≤ ·)

/-- A decimal written without exponent. -/
def positional (l : Layout) (negative : Bool) (d : Scaled) : Numeral :=
  if 0 ≤ d.exponent then
    let whole := d.coefficient * Nat.pow 10 d.exponent.toNat
    if l.keepsFraction then ⟨negative, whole * 10, 1, none⟩ else ⟨negative, whole, 0, none⟩
  else ⟨negative, d.coefficient, d.exponent.natAbs, none⟩

/-- A decimal written with one digit before the point and an exponent. -/
def scientific (negative : Bool) (d : Scaled) : Numeral :=
  let more := (Nat.toDigits 10 d.coefficient).length - 1
  ⟨negative, d.coefficient, more, some (d.exponent + more)⟩

/-- The numeral of a finite double. -/
def numeral (l : Layout) (x : Float) : Numeral :=
  let negative := x.toBits >>> 63 == 1
  if x == 0.0 then l.positional negative ⟨0, 0⟩
  else
    let d := (Binary.ofBits x.toBits).shortest l.tie
    let first := d.exponent + (Nat.toDigits 10 d.coefficient).length - 1
    if l.isPositional first then l.positional negative d else scientific negative d

/-- The text of any double. -/
def text (l : Layout) (x : Float) : String :=
  if x.isNaN then "NaN"
  else if x.isInf then (if x < 0.0 then "-inf" else "inf")
  else (l.numeral x).text l.marksPlus

end Layout

end FlatModel.Decimal
