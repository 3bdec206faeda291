import FlatModel.Decimal.Layout

/-!
# JSON values

A JSON text as a value.  Nothing of the text is lost that a reader may have to tell apart: members
of an object stay in order and may repeat a name, and a number stays a numeral, so `1`, `1.0` and
`1e0` differ.

A string may hold an escape of a surrogate that has no partner.  Such a string is grammatical but
stands for no text; it is kept as `none`, and whoever needs the text refuses it.
-/

namespace FlatModel

open Decimal

/-- A JSON value. -/
inductive Json where
  /-- The value `null`. -/
  | null
  /-- A truth value. -/
  | bool (value : Bool)
  /-- A number as it is written. -/
  | number (value : Numeral)
  /-- A string, `none` if an unpaired surrogate keeps it from being text. -/
  | string (text : Option String)
  /-- The items of an array. -/
  | array (items : List Json)
  /-- The members of an object in order, names possibly repeated. -/
  | object (members : List (Option String × Json))
  deriving Inhabited

namespace Json

/-- A string that is text. -/
def str (s : String) : Json := .string (some s)

/-- An object whose names are text. -/
def record (members : List (String × Json)) : Json :=
  .object (members.map fun m => (some m.1, m.2))

/-- A whole number. -/
def int (n : Int) : Json := .number (.ofInt n)

/-- A natural number. -/
def nat (n : Nat) : Json := .int n

/-- Reals have the fewest digits that read back and always a point or an exponent.  The exponent
is written below `10 ^ -5` and from `10 ^ 16` on, with its sign, and a tie goes to the even
digit. -/
def realLayout : Layout where
  least := some (-5)
  greatest := some 15
  keepsFraction := true
  marksPlus := true
  tie := .even

/-- A double; JSON has no numeral for those that are not finite, they become `null`. -/
def real (x : Float) : Json := if x.isFinite then .number (realLayout.numeral x) else .null

end Json

end FlatModel
