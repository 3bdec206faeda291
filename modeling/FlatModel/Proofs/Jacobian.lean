import FlatModel.Proofs.DerivativeValue
import FlatModel.Proofs.Elimination
import FlatModel.Proofs.Except

/-!
# Grids of partial derivatives

* `Grid.exists_mapM` — a function succeeds at a grid if it does at every entry.
* `jacobian_eq_ok` — the entries of a grid of partial derivatives; `exists_jacobian` — there is one.
* `jacobian_hasValues` — the matrix of their values.
-/

namespace FlatModel.Symbolic

open FlatModel.Symbolic.Expr

/-- A function may be applied to every entry of a grid if it may be applied to each. -/
theorem Grid.exists_mapM {α β ε : Type} {f : α → Except ε β} {g : Grid α}
    (h : ∀ row ∈ g.rows, ∀ a ∈ row, ∃ b, f a = .ok b) : ∃ g', g.mapM f = .ok g' := by
  obtain ⟨rows, hrows⟩ := exists_mapM_eq_ok fun row hrow => exists_mapM_eq_ok (h row hrow)
  exact ⟨⟨g.columns, rows, Grid.full_of_mapM hrows⟩, Grid.mapM_eq_ok.mpr ⟨rfl, hrows⟩⟩

/-- There is a grid of partial derivatives if all these exist. -/
theorem exists_jacobian {K : Type} [Scalar K] {exprs vars : List (Expr K)}
    (h : ∀ e ∈ exprs, ∀ v ∈ vars, ∃ d, e.diff v = .ok d) : ∃ g, jacobian exprs vars = .ok g := by
  apply Grid.exists_mapM
  intro row hrow p hp
  obtain ⟨e, he, rfl⟩ := List.mem_map.mp hrow
  obtain ⟨v, hv, rfl⟩ := List.mem_map.mp hp
  exact h e he v hv

section

variable {K : Type} [Scalar K] {m n : ℕ} {exprs : Fin m → Expr K} {vars : Fin n → Expr K}
  {g : Grid (Expr K)}

/-- A grid of partial derivatives has a row for each expression and a column for each atom. -/
theorem jacobian_eq_ok (h : jacobian (List.ofFn exprs) (List.ofFn vars) = .ok g) :
    ∃ D : Fin m → Fin n → Expr K, (∀ i j, (exprs i).diff (vars j) = .ok (D i j)) ∧
      g = .ofFn D := by
  obtain ⟨hcolumns, hrows⟩ := jacobian_eq_ok_iff.mp h
  obtain ⟨row, hg, hrow⟩ := forall₂_ofFn_left.mp (mapM_eq_ok.mp hrows)
  choose D hD hdiff using fun i => forall₂_ofFn_left.mp (mapM_eq_ok.mp (hrow i))
  refine ⟨D, hdiff, Grid.ext_rows (hcolumns.trans List.length_ofFn) ?_⟩
  rw [hg, funext hD]
  rfl

end

variable {K : Type} [ExactScalar K] {R : Reading K ℚ} {ρ : Valuation ℚ}

/-- **The values of a grid of partial derivatives.** -/
theorem jacobian_hasValues {m n : ℕ} {exprs : Fin m → Expr K} {vars : Fin n → Expr K}
    {g : Grid (Expr K)} (h : jacobian (List.ofFn exprs) (List.ofFn vars) = .ok g)
    {A : Matrix (Fin m) (Fin n) ℚ}
    (hA : ∀ i j, HasDerivative R ρ (unitLeaf (vars j)) (exprs i) (A i j)) :
    g.HasValues R.toFunctions ρ A := by
  obtain ⟨D, hD, rfl⟩ := jacobian_eq_ok h
  exact Grid.hasValues_ofFn fun i j => (hA i j).value_diff (hD i j)

end FlatModel.Symbolic
