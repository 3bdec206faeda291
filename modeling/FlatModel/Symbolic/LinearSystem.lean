import FlatModel.Symbolic.Grid

/-!
# Linear systems

* `LinearSystem.choosePivot` — the first row whose head is not the number zero.  Whether an entry
  is zero is read off its form, so a pivot may still have the value zero for some values of the
  symbols.
* `Row.eliminate` — a row less the multiple of the pivot row that makes its head vanish.
* `LinearSystem.triangulate` — one pivot row for each column, or the first column without one.
* `LinearSystem.backSubstitute` — the unknowns from the last pivot row upward.
* `solveLinear a b` — the solution of `a * x = b`.

Elimination goes column by column.  The rows that are left after a column no longer show it, so
the head of a row is always the entry of the column in turn.
-/

namespace FlatModel.Symbolic

/-- An equation of a linear system: the coefficients of the unknowns that are left, and the right
side. -/
structure Row (K : Type) where
  /-- The coefficients. -/
  coeffs : List (Expr K)
  /-- The right side. -/
  rhs : Expr K

namespace Row

variable {K : Type} [Scalar K]

/-- The coefficient of the first unknown that is left. -/
def head (r : Row K) : Expr K := r.coeffs.headD Expr.zero

omit [Scalar K] in
/-- The equation without its first unknown. -/
def tail (r : Row K) : Row K := ⟨r.coeffs.tail, r.rhs⟩

/-- One entry after subtracting the multiple of a pivot's entry. -/
def reduceEntry (factor entry pivotEntry : Expr K) : Expr K :=
  (Expr.sub entry (.mul factor pivotEntry)).simplify

/-- The equation with its first unknown eliminated by a pivot equation. -/
def eliminate (pivot r : Row K) : Row K :=
  if r.head.isZero then r.tail
  else
    let factor := (Expr.div r.head pivot.head).simplify
    ⟨List.zipWith (reduceEntry factor) r.coeffs.tail pivot.coeffs.tail,
      reduceEntry factor r.rhs pivot.rhs⟩

end Row

namespace LinearSystem

variable {K : Type} [Scalar K]

/-- The first row whose head is not the number zero, and the other rows.  The row that stood first
takes the place of the pivot. -/
def choosePivot : List (Row K) → Option (Row K × List (Row K))
  | [] => none
  | r :: rest =>
      if r.head.isZero then exchange r [] rest else some (r, rest)
where
  /-- Look for the pivot below the first row. -/
  exchange (first : Row K) (passed : List (Row K)) : List (Row K) → Option (Row K × List (Row K))
    | [] => none
    | r :: rest =>
        if r.head.isZero then exchange first (r :: passed) rest
        else some (r, passed.reverse ++ first :: rest)

/-- The pivot rows of `left` more columns, the first of them being number `column`. -/
def triangulate : (left column : Nat) → List (Row K) → Except SymbolicError (List (Row K))
  | 0, _, _ => .ok []
  | left + 1, column, rows =>
      match choosePivot rows with
      | none => .error (.singular column)
      | some (pivot, others) => do
          let lower ← triangulate left (column + 1) (others.map (Row.eliminate pivot))
          return pivot :: lower

/-- The value of the first unknown of a pivot row from those of the unknowns after it. -/
def solveRow (r : Row K) (solved : List (Expr K)) : Expr K :=
  let rest := (List.zip r.coeffs.tail solved).foldl
    (fun acc p => Expr.sub acc (.mul p.1 p.2)) r.rhs
  (Expr.div rest r.head).simplify

/-- The values of all unknowns, the last one first found. -/
def backSubstitute (pivots : List (Row K)) : List (Expr K) :=
  pivots.foldr (fun r solved => solveRow r solved :: solved) []

end LinearSystem

/-- The solution of a square linear system. -/
def solveLinear {K : Type} [Scalar K] (a : Grid (Expr K)) (b : List (Expr K)) :
    Except SymbolicError (List (Expr K)) :=
  let n := b.length
  if a.height = n ∧ a.columns = n then do
    let pivots ← LinearSystem.triangulate n 0 (List.zipWith Row.mk a.rows b)
    return LinearSystem.backSubstitute pivots
  else .error (.shape a.height a.columns n)

end FlatModel.Symbolic
