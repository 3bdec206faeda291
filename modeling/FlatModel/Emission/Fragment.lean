import FlatModel.Tree.Literal

/-!
# Source fragments

How an expression or an equation is written in the generated module once its operands are.  The
texts of operands are taken as they are, without parentheses, so each fragment is made once from
the fragments below it.
-/

namespace FlatModel.Emission

/-- The operators written between two operands. -/
def binaryOperators : List String := ["+", "-", "*", "/"]

/-- The operators written before one operand. -/
def unaryOperators : List String := ["+", "-"]

/-- The functions that are called by another name than their operator. -/
def callTable : List (String × String) :=
  [("^", "sympy.Pow"), ("abs", "sympy.Abs"), ("acos", "sympy.acos"), ("asin", "sympy.asin"),
    ("atan", "sympy.atan"), ("atan2", "sympy.atan2"), ("cosh", "sympy.cosh"),
    ("exp", "sympy.exp"), ("log", "sympy.log"), ("max", "sympy.Max"), ("min", "sympy.Min"),
    ("sign", "sympy.sign"), ("sinh", "sympy.sinh"), ("sqrt", "sympy.sqrt"),
    ("tanh", "sympy.tanh")]

/-- The name by which an operator is called: its own unless the table knows another. -/
def callName (operator : String) : String := (callTable.lookup operator).getD operator

/-- A call with arguments in parentheses. -/
def renderCall (operator : String) (operands : List String) : String :=
  callName operator ++ "(" ++ ", ".intercalate operands ++ ")"

/-- An operator applied to operands: a derivative by time, an operator between or before its
operands, or a call. -/
def renderOperation (operator : String) (operands : List String) : String :=
  match operands with
  | [operand] =>
      if operator = "der" then "(" ++ operand ++ ").diff(self.t)"
      else if unaryOperators.contains operator then operator ++ " " ++ operand
      else renderCall operator operands
  | [left, right] =>
      if binaryOperators.contains operator then left ++ " " ++ operator ++ " " ++ right
      else renderCall operator operands
  | _ => renderCall operator operands

/-- The residual of an equation, zero where the equation holds. -/
def renderEquation (left right : String) : String := left ++ " - (" ++ right ++ ")"

end FlatModel.Emission
