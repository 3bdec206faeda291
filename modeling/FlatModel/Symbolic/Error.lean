/-!
# What can go wrong with expressions
-/

namespace FlatModel.Symbolic

/-- Why a symbolic computation has no result. -/
inductive SymbolicError where
  /-- The derivative of a function is not known. -/
  | notDifferentiable (function : String)
  /-- A name has no value. -/
  | unboundSymbol (name : String)
  /-- A function is not known with so many arguments. -/
  | unknownFunction (function : String)
  /-- No row is left that could determine an unknown. -/
  | singular (column : Nat)
  /-- The numbers of rows, columns and right-hand sides do not belong together. -/
  | shape (rows columns rhs : Nat)
  deriving DecidableEq, Repr

namespace SymbolicError

/-- The wording of an error. -/
def message : SymbolicError → String
  | .notDifferentiable f => "function '" ++ f ++ "' cannot be differentiated"
  | .unboundSymbol n => "symbol '" ++ n ++ "' has no value"
  | .unknownFunction f => "function '" ++ f ++ "' cannot be evaluated"
  | .singular k => "linear system has no non-zero pivot in column " ++ toString k
  | .shape rows columns rhs =>
      "linear system is " ++ toString rows ++ "x" ++ toString columns ++ " with " ++
        toString rhs ++ " right-hand sides"

end SymbolicError

end FlatModel.Symbolic
