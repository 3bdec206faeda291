import Mathlib.Logic.Function.Basic
import FlatModel.Proofs.DerivativeValue

/-!
# Values for unknowns

* `Valuation.assign` — a valuation with other values for some atoms, the unknowns.
* `Expr.value_congr` — the value of an expression depends on the atoms it contains only.
* `Expr.FreeOf` — none of the unknowns occurs.
* `Expr.FreeOf.value_assign`, `Expr.FreeOf.constantLeaves` — an expression free of unknowns keeps
  its value when they change, and does not vary with them.
* `Replaces` — a substitution that replaces every unknown by an expression of its value.
* `Expr.value_subst` — substitution is evaluation with other values for the unknowns.
-/

namespace FlatModel.Symbolic

variable {K : Type} [ExactScalar K] {n : ℕ}

/-- The valuation with the values `z` for the atoms `u`. -/
noncomputable def Valuation.assign (ρ : Valuation ℚ) (u : Fin n → Atom) (z : Fin n → ℚ) :
    Valuation ℚ :=
  Function.extend u (fun i => some (z i)) ρ

section assign

variable {ρ : Valuation ℚ} {u : Fin n → Atom} {z : Fin n → ℚ}

/-- The assigned value of an unknown. -/
theorem Valuation.assign_unknown (hu : Function.Injective u) (i : Fin n) :
    ρ.assign u z (u i) = some (z i) :=
  hu.extend_apply _ _ i

/-- Other atoms keep their values. -/
theorem Valuation.assign_of_ne {α : Atom} (h : ∀ i, u i ≠ α) : ρ.assign u z α = ρ α :=
  Function.extend_apply' _ _ _ fun ⟨i, hi⟩ => h i hi

end assign

namespace Expr

/-! ## The atoms that matter -/

/-- An atom contains only itself. -/
theorem contains_expr (α β : Atom) : (α.expr : Expr K).contains β.expr = true ↔ α = β := by
  rw [← expr_beq_expr (K := K)]
  obtain ⟨n, _ | k⟩ := α <;> rfl

section congr

variable {F : Functions ℚ} {ρ σ : Valuation ℚ}

mutual

/-- The value of an expression depends on the atoms it contains only. -/
theorem value_congr : ∀ {e : Expr K}, (∀ α : Atom, e.contains α.expr = true → ρ α = σ α) →
    e.value F ρ = e.value F σ
  | .num _, _ => rfl
  | .sym n, h => h ⟨n, 0⟩ ((contains_expr ⟨n, 0⟩ ⟨n, 0⟩).mpr rfl)
  | .der a, h => by
      rcases ha : a.atom? with _ | α
      · rw [value, value, ha]
        rfl
      · have hder : (Expr.der a).atom? = some α.der := congrArg (Option.map Atom.der) ha
        rw [eq_expr_of_atom? hder, value_atom, value_atom]
        refine h α.der ?_
        rw [eq_expr_of_atom? hder]
        exact (contains_expr α.der α.der).mpr rfl
  | .neg a, h => by
      have ha : a.value F ρ = a.value F σ := value_congr fun α hα =>
        h α (by rw [contains, hα, Bool.or_true])
      rw [value, value, ha]
  | .add a b, h | .sub a b, h | .mul a b, h | .div a b, h | .pow a b, h => by
      have ha : a.value F ρ = a.value F σ := value_congr fun α hα =>
        h α (by rw [contains, hα, Bool.true_or, Bool.or_true])
      have hb : b.value F ρ = b.value F σ := value_congr fun α hα =>
        h α (by rw [contains, hα, Bool.or_true, Bool.or_true])
      rw [value, value, ha, hb]
  | .call f args, h => by
      have hargs : valueAll F ρ args = valueAll F σ args := valueAll_congr fun α hα =>
        h α (by rw [contains, hα, Bool.or_true])
      rw [value, value, hargs]

/-- The values of expressions depend on the atoms they contain only. -/
theorem valueAll_congr : ∀ {s : List (Expr K)},
    (∀ α : Atom, anyContains s α.expr = true → ρ α = σ α) → valueAll F ρ s = valueAll F σ s
  | [], _ => rfl
  | a :: rest, h => by
      have ha : a.value F ρ = a.value F σ := value_congr fun α hα =>
        h α (by rw [anyContains, hα, Bool.true_or])
      have hrest : valueAll F ρ rest = valueAll F σ rest := valueAll_congr fun α hα =>
        h α (by rw [anyContains, hα, Bool.or_true])
      rw [valueAll, valueAll, ha, hrest]

end

end congr

/-! ## Expressions without unknowns -/

/-- None of the atoms `u` occurs in the expression. -/
def FreeOf (u : Fin n → Atom) (e : Expr K) : Prop := ∀ i, e.contains (u i).expr = false

variable {u : Fin n → Atom} {F : Functions ℚ} {ρ : Valuation ℚ}

/-- Without unknowns the value does not depend on them. -/
theorem FreeOf.value_assign {e : Expr K} (he : e.FreeOf u) (z : Fin n → ℚ) :
    e.value F (ρ.assign u z) = e.value F ρ := by
  refine value_congr fun α hα => Valuation.assign_of_ne fun i hi => ?_
  subst hi
  rw [he i] at hα
  cases hα

/-- A number contains no unknown. -/
theorem freeOf_num (m : K) : (num m).FreeOf u := fun i => by
  obtain ⟨n, _ | k⟩ := u i <;> rfl

/-- Another atom contains no unknown. -/
theorem freeOf_expr {α : Atom} (h : ∀ i, α ≠ u i) : (α.expr : Expr K).FreeOf u := fun i =>
  Bool.eq_false_iff.mpr fun hα => h i ((contains_expr α (u i)).mp hα)

/-- A leaf that is not the atom does not vary with it. -/
theorem constantLeaf_of_ne {var : Expr K} : ∀ {l : Expr K}, (l == var) = false →
    ConstantLeaf (unitLeaf var) l
  | .num _, _ => trivial
  | .sym _, h | .der _, h | .neg _, h | .add _ _, h | .sub _ _, h | .mul _ _, h | .div _ _, h
  | .pow _ _, h | .call _ _, h => by
      show (unitLeaf var _).simplify.IsZeroNumber
      rw [unitLeaf, h]
      exact isZeroNumber_zero

/-- Without unknowns no leaf varies with them. -/
theorem FreeOf.constantLeaves {e : Expr K} (he : e.FreeOf u) (i : Fin n) :
    e.AllLeaves (ConstantLeaf (unitLeaf (u i).expr)) :=
  (allLeaves_of_contains (he i)).imp fun _ => constantLeaf_of_ne

/-! ## Substitution -/

end Expr

/-- Every unknown is replaced, and by an expression of the given value; nothing else is. -/
structure Replaces (F : Functions ℚ) (ρ : Valuation ℚ) (pairs : List (Expr K × Expr K))
    (u : Fin n → Atom) (z : Fin n → ℚ) : Prop where
  /-- What is replaced is an unknown, by an expression of its value. -/
  sound : ∀ p ∈ pairs, ∃ i, p.1 = (u i).expr ∧ p.2.value F ρ = some (z i)
  /-- Every unknown is replaced. -/
  complete : ∀ i, ∃ p ∈ pairs, p.1 = (u i).expr

namespace Replaces

variable {F : Functions ℚ} {ρ : Valuation ℚ} {pairs : List (Expr K × Expr K)} {u : Fin n → Atom}
  {z : Fin n → ℚ}

open FlatModel.Symbolic.Expr

/-- Only atoms are replaced. -/
theorem replacement?_eq_none (hp : Replaces F ρ pairs u z) {e : Expr K}
    (he : ∀ α : Atom, (α.expr == e) = false) : replacement? pairs e = none := by
  rw [replacement?, Option.map_eq_none_iff, List.find?_eq_none]
  intro p hmem hbeq
  obtain ⟨i, hi, _⟩ := hp.sound p hmem
  rw [hi, he] at hbeq
  cases hbeq

/-- The value of an atom after replacement is the assigned value. -/
theorem value_atom (hp : Replaces F ρ pairs u z) (hu : Function.Injective u) (α : Atom) :
    ((replacement? pairs α.expr).getD α.expr).value F ρ = ρ.assign u z α := by
  rw [replacement?]
  rcases hfind : pairs.find? fun p => p.1 == α.expr with _ | p
  · rw [hfind, Option.map_none, Option.getD_none, Expr.value_atom, Valuation.assign_of_ne]
    rw [List.find?_eq_none] at hfind
    intro i hi
    obtain ⟨p, hmem, hp1⟩ := hp.complete i
    exact hfind p hmem (by rw [hp1, hi]; exact expr_beq_expr.mpr rfl)
  · obtain ⟨i, hi, hvalue⟩ := hp.sound p (List.mem_of_find?_eq_some hfind)
    have hbeq := List.find?_some hfind
    rw [hi, expr_beq_expr] at hbeq
    rw [hfind, Option.map_some, Option.getD_some, hvalue, ← hbeq, Valuation.assign_unknown hu]

end Replaces

namespace Expr

variable {F : Functions ℚ} {ρ : Valuation ℚ} {pairs : List (Expr K × Expr K)} {u : Fin n → Atom}
  {z : Fin n → ℚ}

/-- A leaf that is a number, a symbol or an unknown. -/
def PlainLeaf (u : Fin n → Atom) : Expr K → Prop
  | .der a => ∃ i, Expr.der a = (u i).expr
  | _ => True

/-- Zeros for all unknowns. -/
theorem replaces_zero (F : Functions ℚ) (ρ : Valuation ℚ) (u : Fin n → Atom) :
    Replaces F ρ ((List.ofFn fun i => ((u i).expr : Expr K)).map fun x => (x, Expr.zero)) u 0 := by
  constructor
  · intro p hp
    obtain ⟨_, hx, rfl⟩ := List.mem_map.mp hp
    obtain ⟨i, rfl⟩ := (List.mem_ofFn' _ _).mp hx
    exact ⟨i, rfl, value_zero⟩
  · intro i
    exact ⟨_, List.mem_map_of_mem ((List.mem_ofFn' _ _).mpr ⟨i, rfl⟩), rfl⟩

mutual

/-- **Substitution is evaluation with the values of the replacements for the unknowns.** -/
theorem value_subst (hp : Replaces F ρ pairs u z) (hu : Function.Injective u) :
    ∀ {e : Expr K}, e.AllLeaves (PlainLeaf u) →
      (e.subst pairs).value F ρ = e.value F (ρ.assign u z)
  | .num x, _ => by
      rw [subst, hp.replacement?_eq_none (expr_beq_of_atom?_eq_none rfl)]
      rfl
  | .sym n, _ => hp.value_atom hu ⟨n, 0⟩
  | .der a, ⟨i, hi⟩ => by
      have hvalue := hp.value_atom hu (u i)
      rcases hr : replacement? pairs (.der a) with _ | t
      · -- an unknown is always replaced
        obtain ⟨p, hmem, hp1⟩ := hp.complete i
        rw [replacement?, Option.map_eq_none_iff, List.find?_eq_none] at hr
        exact absurd (by rw [hp1, hi]; exact expr_beq_expr.mpr rfl) (hr p hmem)
      · rw [← hi, hr, Option.getD_some] at hvalue
        rw [subst, hr, Option.getD_some, hvalue, hi, value_atom]
  | .neg a, he => by
      rw [subst, hp.replacement?_eq_none (expr_beq_of_atom?_eq_none rfl), Option.getD_none, value,
        value, value_subst hp hu (e := a) he]
  | .add a b, he | .sub a b, he | .mul a b, he | .div a b, he | .pow a b, he => by
      rw [subst, hp.replacement?_eq_none (expr_beq_of_atom?_eq_none rfl), Option.getD_none, value,
        value, value_subst hp hu (e := a) he.1, value_subst hp hu (e := b) he.2]
  | .call f args, he => by
      rw [subst, hp.replacement?_eq_none (expr_beq_of_atom?_eq_none rfl), Option.getD_none, value,
        value, valueAll_substAll hp hu (s := args) he]

/-- Substitution in a list of expressions. -/
theorem valueAll_substAll (hp : Replaces F ρ pairs u z) (hu : Function.Injective u) :
    ∀ {s : List (Expr K)}, AllLeavesOf (PlainLeaf u) s →
      valueAll F ρ (substAll pairs s) = valueAll F (ρ.assign u z) s
  | [], _ => rfl
  | a :: rest, he => by
      rw [substAll, valueAll, valueAll, value_subst hp hu (e := a) he.1,
        valueAll_substAll hp hu (s := rest) he.2]

end

end Expr

end FlatModel.Symbolic
