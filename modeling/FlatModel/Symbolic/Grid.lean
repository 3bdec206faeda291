import FlatModel.Symbolic.Derivative

/-!
# Grids of entries

A grid has rows of equally many entries.  A grid without rows still has a number of columns.  That no
row is too short or too long is part of the type.

* `Grid.ofRows`, `Grid.product` — the grid of given rows, and of the pairs of two lists.
* `Grid.mapM` — a function that may fail applied to every entry; `Grid.mapM_eq_ok` says what it gives.
* `jacobian` — the partial derivatives of expressions; `jacobian_eq_ok_iff` says what its rows are.
-/

namespace FlatModel

/-- A function that may fail has succeeded at every item, in order. -/
theorem map_eq_of_mapM_eq_ok {α β ε : Type} {f : α → Except ε β} : ∀ {items : List α}
    {results : List β}, items.mapM f = .ok results → items.map f = results.map .ok
  | [], _, h => by
      cases h
      rfl
  | a :: rest, results, h => by
      rw [List.mapM_cons] at h
      rcases ha : f a with e | b
      · rw [ha] at h
        cases h
      · rw [ha] at h
        rcases hrest : rest.mapM f with e | bs
        · rw [hrest] at h
          cases h
        · rw [hrest] at h
          cases h
          rw [List.map_cons, List.map_cons, ha, map_eq_of_mapM_eq_ok hrest]

namespace Symbolic

/-- Entries in rows and columns. -/
structure Grid (α : Type) where
  /-- The number of columns. -/
  columns : Nat
  /-- The rows from the top. -/
  rows : List (List α)
  /-- Every row has an entry in every column. -/
  full : ∀ row ∈ rows, row.length = columns
  deriving DecidableEq, Repr

namespace Grid

variable {α β ε : Type}

/-- Grids of the same rows and as many columns are one grid. -/
@[ext] theorem ext_rows {g g' : Grid α} (hcolumns : g.columns = g'.columns)
    (hrows : g.rows = g'.rows) : g = g' := by
  cases g
  cases g'
  cases hcolumns
  cases hrows
  rfl

/-- The grid without rows and columns. -/
def empty : Grid α := ⟨0, [], nofun⟩

/-- Some grid: the empty one. -/
instance : Inhabited (Grid α) := ⟨empty⟩

/-- The number of rows. -/
def height (g : Grid α) : Nat := g.rows.length

/-- The grid of the given rows, as wide as the first one.  What is wider or narrower is no row of
it. -/
def ofRows (rows : List (List α)) : Grid α where
  columns := (rows.headD []).length
  rows := rows.filter fun row => row.length = (rows.headD []).length
  full row hrow := by simpa using (List.mem_filter.mp hrow).2

/-- Of rows that are equally wide, none is left out. -/
theorem rows_ofRows {rows : List (List α)} (h : ∀ row ∈ rows, row.length = (rows.headD []).length) :
    (ofRows rows).rows = rows :=
  List.filter_eq_self.mpr fun row hrow => decide_eq_true (h row hrow)

/-- The pairs of two lists, one row for each item of the first and one column for each of the
second. -/
def product (as : List α) (bs : List β) : Grid (α × β) where
  columns := bs.length
  rows := as.map fun a => bs.map fun b => (a, b)
  full row hrow := by
    obtain ⟨a, -, rfl⟩ := List.mem_map.mp hrow
    exact List.length_map _

/-- The results of a function that may fail are as many in every row as there are columns. -/
theorem full_of_mapM {f : α → Except ε β} {g : Grid α} {rows : List (List β)}
    (h : g.rows.mapM (fun row => row.mapM f) = .ok rows) : ∀ row ∈ rows, row.length = g.columns := by
  intro row hrow
  have hmem : Except.ok row ∈ g.rows.map fun row => row.mapM f := by
    rw [map_eq_of_mapM_eq_ok h]
    exact List.mem_map_of_mem hrow
  obtain ⟨source, hsource, hresults⟩ := List.mem_map.mp hmem
  have hlength := congrArg List.length (map_eq_of_mapM_eq_ok hresults)
  rw [List.length_map, List.length_map] at hlength
  rw [← hlength, g.full source hsource]

/-- Apply a function that may fail to every entry, row by row. -/
def mapM (f : α → Except ε β) (g : Grid α) : Except ε (Grid β) :=
  match h : g.rows.mapM fun row => row.mapM f with
  | .ok rows => .ok ⟨g.columns, rows, full_of_mapM h⟩
  | .error e => .error e

/-- **A function succeeds at a grid just if it does at all of its rows**, and gives a grid of as many
columns. -/
theorem mapM_eq_ok {f : α → Except ε β} {g : Grid α} {g' : Grid β} :
    g.mapM f = .ok g' ↔
      g'.columns = g.columns ∧ g.rows.mapM (fun row => row.mapM f) = .ok g'.rows := by
  unfold mapM
  split
  · rename_i rows hrows
    constructor
    · intro h
      cases h
      exact ⟨rfl, hrows⟩
    · rintro ⟨hcolumns, h⟩
      cases hrows.symm.trans h
      exact congrArg Except.ok (ext_rows hcolumns.symm rfl)
  · rename_i e he
    rw [he]
    exact ⟨nofun, fun ⟨_, h⟩ => nomatch h⟩

end Grid

/-- The partial derivatives of expressions, one row for each, by atoms, one column for each. -/
def jacobian {K : Type} [Scalar K] (exprs vars : List (Expr K)) :
    Except SymbolicError (Grid (Expr K)) :=
  (Grid.product exprs vars).mapM fun p => p.1.diff p.2

/-- **A grid of partial derivatives** has a column for each atom, and its rows are the derivatives of
the expressions. -/
theorem jacobian_eq_ok_iff {K : Type} [Scalar K] {exprs vars : List (Expr K)} {g : Grid (Expr K)} :
    jacobian exprs vars = .ok g ↔ g.columns = vars.length ∧
      exprs.mapM (fun e => vars.mapM fun v => e.diff v) = .ok g.rows := by
  rw [jacobian, Grid.mapM_eq_ok, Grid.product, List.mapM_map]
  simp only [Function.comp_def, List.mapM_map]

end Symbolic

end FlatModel
