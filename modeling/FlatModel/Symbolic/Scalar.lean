import FlatModel.Decimal.Layout

/-!
# Numbers that expressions compute with

Everything symbolic is written for any type of numbers that offers the operations of `Scalar`.
Programs run on doubles; the same definitions read over exact numbers say what they mean.

Equality of scalars is the equality of the arithmetic: a NaN differs from itself, and the two
zeros are equal.
-/

namespace FlatModel.Symbolic

open Decimal

/-- The operations on numbers that symbolic computation needs. -/
class Scalar (K : Type) where
  /-- The number of an integer. -/
  ofInt : Int → K
  /-- The number of a double. -/
  ofFloat : Float → K
  /-- The sum. -/
  add : K → K → K
  /-- The difference. -/
  sub : K → K → K
  /-- The product. -/
  mul : K → K → K
  /-- The quotient. -/
  div : K → K → K
  /-- The opposite number. -/
  neg : K → K
  /-- The power. -/
  pow : K → K → K
  /-- The value of a function by name, if there is one with so many arguments. -/
  call? : String → List K → Option K
  /-- Whether two numbers are equal. -/
  beq : K → K → Bool
  /-- Whether a number is below zero. -/
  isNegative : K → Bool
  /-- Whether a number is neither infinite nor undefined. -/
  isFinite : K → Bool
  /-- The number in print. -/
  text : K → String

namespace Scalar

variable {K : Type} [Scalar K]

/-- The number zero. -/
def zero : K := ofInt 0

/-- The number one. -/
def one : K := ofInt 1

/-- The number two. -/
def two : K := ofInt 2

/-- The number minus one. -/
def minusOne : K := ofInt (-1)

/-- Whether a number is zero. -/
def isZero (x : K) : Bool := beq x zero

/-- Whether a number is one. -/
def isOne (x : K) : Bool := beq x one

/-- Whether a number is minus one. -/
def isMinusOne (x : K) : Bool := beq x minusOne

end Scalar

/-! ## Doubles -/

namespace Double

/-- The sign of a number as a number; zeros of both signs give zero. -/
def sign (x : Float) : Float :=
  if x == 0.0 then 0.0 else if x < 0.0 then -1.0 else if 0.0 < x then 1.0 else x

/-- The smaller of two numbers; a NaN loses against a number. -/
def min (x y : Float) : Float := if x.isNaN then y else if y < x then y else x

/-- The larger of two numbers; a NaN loses against a number. -/
def max (x y : Float) : Float := if x.isNaN then y else if x < y then y else x

/-- The functions of one argument by name. -/
def unary : List (String × (Float → Float)) :=
  [("sin", Float.sin), ("cos", Float.cos), ("tan", Float.tan), ("asin", Float.asin),
    ("acos", Float.acos), ("atan", Float.atan), ("sinh", Float.sinh), ("cosh", Float.cosh),
    ("tanh", Float.tanh), ("exp", Float.exp), ("log", Float.log), ("sqrt", Float.sqrt),
    ("abs", Float.abs), ("sign", sign)]

/-- The functions of two arguments by name. -/
def binary : List (String × (Float → Float → Float)) :=
  [("atan2", Float.atan2), ("min", min), ("max", max)]

/-- The value of a named function; unknown names and other numbers of arguments have none. -/
def call? (name : String) : List Float → Option Float
  | [x] => (unary.lookup name).map fun f => f x
  | [x, y] => (binary.lookup name).map fun f => f x y
  | _ => none

/-- Numbers in printed expressions have the fewest digits that read back, no exponent, and no
fraction if they are whole. -/
def layout : Layout where
  least := none
  greatest := none
  keepsFraction := false
  marksPlus := false
  tie := .away

end Double

/-- Doubles with the functions of the mathematical library. -/
instance : Scalar Float where
  ofInt := Float.ofInt
  ofFloat x := x
  add := (· + ·)
  sub := (· - ·)
  mul := (· * ·)
  div := (· / ·)
  neg := (- ·)
  pow := Float.pow
  call? := Double.call?
  beq := (· == ·)
  isNegative x := x < 0.0
  isFinite := Float.isFinite
  text := Double.layout.text

end FlatModel.Symbolic
