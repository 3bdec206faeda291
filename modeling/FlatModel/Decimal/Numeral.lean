/-!
# Written decimal numbers

A numeral is a decimal number as it stands on paper: a sign, a whole number of units of the last
written place, how many places follow the point, and an exponent if one is written.  `1.50` and
`1.5` are different numerals of one value, and `1` is a numeral without a point.

`Numeral.text` writes a numeral and `Numeral.toFloat` reads its value as the nearest double.
-/

namespace FlatModel.Decimal

/-- A decimal number in writing: `coefficient / 10 ^ places`, times a power of ten if an exponent
is written. -/
structure Numeral where
  /-- Whether a minus sign is written. -/
  negative : Bool
  /-- All written digits read as one whole number. -/
  coefficient : Nat
  /-- The number of digits after the point; no point is written if there are none. -/
  places : Nat
  /-- The written exponent of ten. -/
  exponent : Option Int
  deriving DecidableEq, Repr, Inhabited

namespace Numeral

/-- The numeral of a whole number. -/
def ofInt (n : Int) : Numeral := ⟨decide (n < 0), n.natAbs, 0, none⟩

/-- The digits of the coefficient, with zeros in front until one digit stands before the point. -/
def digits (n : Numeral) : List Char :=
  let ds := Nat.toDigits 10 n.coefficient
  List.replicate (n.places + 1 - ds.length) '0' ++ ds

/-- The digits before the point. -/
def wholeDigits (n : Numeral) : List Char := n.digits.take (n.digits.length - n.places)

/-- The digits after the point. -/
def fractionDigits (n : Numeral) : List Char := n.digits.drop (n.digits.length - n.places)

/-- The written sign. -/
def signText (n : Numeral) : List Char := if n.negative then ['-'] else []

/-- The digits with the point among them. -/
def pointText (n : Numeral) : List Char :=
  let ds := n.digits
  let whole := ds.length - n.places
  if n.places = 0 then ds else ds.take whole ++ '.' :: ds.drop whole

/-- An exponent after its mark, a plus sign only on demand. -/
def exponentText (plus : Bool) : Option Int → List Char
  | none => []
  | some e =>
      let sign := if e < 0 then ['-'] else if plus then ['+'] else []
      'e' :: sign ++ Nat.toDigits 10 e.natAbs

/-- The numeral as characters; `plus` asks for a sign on every exponent. -/
def chars (plus : Bool) (n : Numeral) : List Char :=
  n.signText ++ n.pointText ++ exponentText plus n.exponent

/-- The numeral as text; `plus` asks for a sign on every exponent. -/
def text (plus : Bool) (n : Numeral) : String := String.ofList (n.chars plus)

/-- The power of ten that the coefficient counts. -/
def scale (n : Numeral) : Int := n.exponent.getD 0 - n.places

/-- The whole number that a numeral without point and exponent stands for.  A zero with a minus
sign is no whole number. -/
def toInt? (n : Numeral) : Option Int :=
  if n.places = 0 ∧ n.exponent = none then
    if n.negative then
      if n.coefficient = 0 then none else some (-(n.coefficient : Int))
    else some n.coefficient
  else none

/-- The magnitude as the nearest double, infinite beyond the largest one.  Outside the range of
exponents that doubles have, the power of ten is not formed. -/
def magnitude (n : Numeral) : Float :=
  let order : Int := (Nat.toDigits 10 n.coefficient).length + n.scale
  if n.coefficient = 0 then 0.0
  else if 310 < order then 1.0 / 0.0
  else if order < -330 then 0.0
  else Float.ofScientific n.coefficient (decide (n.scale < 0)) n.scale.natAbs

/-- The value as the nearest double. -/
def toFloat (n : Numeral) : Float := if n.negative then -n.magnitude else n.magnitude

end Numeral

end FlatModel.Decimal
