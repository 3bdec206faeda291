/-!
# The fewest digits that read back

A finite double stands for every real number that rounds to it, an interval around its value.

* `Binary` — a double as a whole number of units and an exponent of two.
* `Binary.bestOn` — the multiple of `10 ^ g` in the interval that is nearest to the value.  Only the
  two neighbours of the value on that grid come into question.
* `Binary.shortest` — the decimal of the coarsest grid with a multiple in the interval, which has
  the fewest digits.

All arithmetic is on whole numbers.
-/

namespace FlatModel.Decimal

/-- A positive finite double, `significand * 2 ^ exponent`. -/
structure Binary where
  /-- The significand, positive. -/
  significand : Nat
  /-- The exponent of two. -/
  exponent : Int
  /-- Whether the next smaller double is only half as far away as the next larger one. -/
  nearerBelow : Bool
  deriving DecidableEq, Repr, Inhabited

/-- A positive decimal, `coefficient * 10 ^ exponent`. -/
structure Scaled where
  /-- The digits as one whole number. -/
  coefficient : Nat
  /-- The exponent of ten. -/
  exponent : Int
  deriving DecidableEq, Repr, Inhabited

/-- What becomes of a value half way between two candidates. -/
inductive Tie where
  /-- The larger magnitude wins. -/
  | away
  /-- The even last digit wins. -/
  | even
  deriving DecidableEq, Repr

namespace Binary

/-- The magnitude of a finite double from its bits. -/
def ofBits (bits : UInt64) : Binary :=
  let field := ((bits >>> 52) &&& 0x7ff).toNat
  let fraction := (bits &&& 0xfffffffffffff).toNat
  if field = 0 then ⟨fraction, -1074, false⟩
  else ⟨fraction + 0x10000000000000, (field : Int) - 1075, fraction = 0 ∧ 1 < field⟩

/-- The value, in quarters of the last binary place. -/
def quarters (x : Binary) : Nat := 4 * x.significand

/-- The lower end of the interval of numbers that round to the value, in the same unit. -/
def lower (x : Binary) : Nat := if x.nearerBelow then x.quarters - 1 else x.quarters - 2

/-- The upper end of the interval of numbers that round to the value, in the same unit. -/
def upper (x : Binary) : Nat := x.quarters + 2

/-- The ends belong to the interval if the significand is even. -/
def within (x : Binary) (low point high : Nat) : Bool :=
  if x.significand % 2 = 0 then low ≤ point && point ≤ high else low < point && point < high

/-- The best multiple of `10 ^ g` in the interval, if there is one.  Both sides are brought to
whole numbers: `k` quarters become `k * unit` and a grid step becomes `step`. -/
def bestOn (tie : Tie) (x : Binary) (g : Int) : Option Nat :=
  let p := x.exponent - 2
  let unit := Nat.pow 2 p.toNat * Nat.pow 10 (-g).toNat
  let step := Nat.pow 2 (-p).toNat * Nat.pow 10 g.toNat
  let value := x.quarters * unit
  let c := value / step
  let inside := fun (k : Nat) => x.within (x.lower * unit) (k * step) (x.upper * unit)
  if inside c then
    if inside (c + 1) then
      if 2 * value < (2 * c + 1) * step then some c
      else if (2 * c + 1) * step < 2 * value then some (c + 1)
      else match tie with
        | .away => some (c + 1)
        | .even => if c % 2 = 0 then some c else some (c + 1)
    else some c
  else if inside (c + 1) then some (c + 1)
  else none

/-- Walk the grids downward from `10 ^ g` to the first that has a multiple in the interval. -/
def searchFrom (tie : Tie) (x : Binary) : Nat → Int → Scaled
  | 0, g => ⟨x.quarters, g⟩
  | fuel + 1, g =>
      match x.bestOn tie g with
      | some c => ⟨c, g⟩
      | none => searchFrom tie x fuel (g - 1)

/-- A power of ten above the value: `log 2` to the base ten is below 0.30103. -/
def firstGrid (x : Binary) : Int :=
  ((x.significand.log2 : Int) + 1 + x.exponent) * 30103 / 100000 + 1

/-- The decimal with the fewest digits that reads back as the value.  Seventeen digits always
suffice, and `firstGrid` is at most two powers of ten too coarse. -/
def shortest (tie : Tie) (x : Binary) : Scaled := x.searchFrom tie 24 x.firstGrid

end Binary

end FlatModel.Decimal
