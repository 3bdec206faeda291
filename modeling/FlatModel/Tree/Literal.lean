import FlatModel.Decimal.Layout

/-!
# Literals

The leaves of a source expression that stand for themselves: truth values, 64-bit integers,
doubles and text.
-/

namespace FlatModel

open Decimal

/-- A literal of a source expression. -/
inductive Literal where
  /-- A truth value. -/
  | boolean (value : Bool)
  /-- An integer. -/
  | integer (value : Int64)
  /-- A real number. -/
  | real (value : Float)
  /-- Text. -/
  | string (value : String)
  deriving Inhabited

namespace Literal

/-- Reals in source text have the fewest digits that read back and always a point or an exponent.
The exponent is written below `10 ^ -4` and from `10 ^ 16` on, without a plus sign. -/
def realLayout : Layout where
  least := some (-4)
  greatest := some 15
  keepsFraction := true
  marksPlus := false
  tie := .away

/-- The literal as source text; a string stands there without quotes. -/
def text : Literal → String
  | .boolean true => "True"
  | .boolean false => "False"
  | .integer v => (Numeral.ofInt v.toInt).text false
  | .real v => realLayout.text v
  | .string v => v

end Literal

end FlatModel
