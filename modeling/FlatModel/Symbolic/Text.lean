import FlatModel.Symbolic.Expr

/-!
# Expressions in print

Expressions are printed with the usual operators and as few parentheses as the strengths of the
operators allow: sums bind weakest, then products, the sign, powers, and last names, calls and
numbers.  A number below zero counts as a product, because it begins with a sign.
-/

namespace FlatModel.Symbolic.Expr

variable {K : Type} [Scalar K]

/-- How strongly the outermost operator binds. -/
def strength : Expr K → Nat
  | .add .. => 1
  | .sub .. => 1
  | .mul .. => 2
  | .div .. => 2
  | .neg .. => 3
  | .num x => if Scalar.isNegative x then 2 else 5
  | .pow .. => 4
  | _ => 5

/-- The characters of an operand, in parentheses if it binds less strongly than it must. -/
def guarded (least : Nat) (e : Expr K) (text : List Char) : List Char :=
  if e.strength < least then '(' :: (text ++ [')']) else text

mutual

/-- The characters of an expression. -/
def chars : Expr K → List Char
  | .num x => (Scalar.text x).toList
  | .sym n => n.toList
  | .der a => ['d', 'e', 'r', '('] ++ a.chars ++ [')']
  | .neg a => '-' :: guarded 3 a a.chars
  | .add a b => guarded 1 a a.chars ++ [' ', '+', ' '] ++ guarded 1 b b.chars
  | .sub a b => guarded 1 a a.chars ++ [' ', '-', ' '] ++ guarded 2 b b.chars
  | .mul a b => guarded 2 a a.chars ++ ['*'] ++ guarded 3 b b.chars
  | .div a b => guarded 2 a a.chars ++ ['/'] ++ guarded 3 b b.chars
  | .pow a b => guarded 5 a a.chars ++ ['*', '*'] ++ guarded 4 b b.chars
  | .call f args => f.toList ++ '(' :: argsChars args

/-- The characters of the arguments of a call and its closing parenthesis. -/
def argsChars : List (Expr K) → List Char
  | [] => [')']
  | a :: rest => a.chars ++ moreArgsChars rest

/-- The characters of the arguments after the first and the closing parenthesis. -/
def moreArgsChars : List (Expr K) → List Char
  | [] => [')']
  | a :: rest => [',', ' '] ++ a.chars ++ moreArgsChars rest

end

/-- The text of an expression. -/
def text (e : Expr K) : String := String.ofList e.chars

end FlatModel.Symbolic.Expr
