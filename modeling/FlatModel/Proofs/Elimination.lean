import Mathlib.Algebra.BigOperators.Fin
import Mathlib.Data.Matrix.Mul
import Mathlib.LinearAlgebra.LinearIndependent.Defs
import Mathlib.LinearAlgebra.Matrix.Notation
import Mathlib.Tactic.FieldSimp
import Mathlib.Tactic.LinearCombination
import FlatModel.Symbolic.LinearSystem
import FlatModel.Proofs.SimplifySound

/-!
# Elimination solves linear systems

* `Row.HasValues` — the numbers that a row of expressions stands for.
* `Row.hasValues_eliminate` — an eliminated row stands for the difference of the row and a multiple
  of the pivot row.
* `dot_eliminate` — where the pivot row holds, a row holds just where the eliminated one does.
* `LinearSystem.chosenPivots` — the pivots that an elimination chooses, also one that fails.
* `LinearSystem.triangulate_solves`, `triangulate_singular` — what elimination finds, by induction
  on the columns that are left.
* `solveLinear_eq_ok`, `solveLinear_eq_error` — the same of matrices, both together in
  `solveLinear_solves`.

Whether an entry is zero is decided by its form, so an entry that is kept may well have the value
zero.  All that is asked for is that no chosen pivot does.
-/

namespace FlatModel.Symbolic

open FlatModel.Symbolic.Expr

/-! ## Linear forms -/

/-- The sum of the products of coefficients and unknowns, as far as both lists go. -/
def dot (as zs : List ℚ) : ℚ := (List.zipWith (· * ·) as zs).sum

@[simp] theorem dot_nil_left (zs : List ℚ) : dot [] zs = 0 := rfl

@[simp] theorem dot_nil_right (as : List ℚ) : dot as [] = 0 := by
  rw [dot, List.zipWith_nil_right, List.sum_nil]

@[simp] theorem dot_cons (a z : ℚ) (as zs : List ℚ) :
    dot (a :: as) (z :: zs) = a * z + dot as zs := by
  rw [dot, List.zipWith_cons_cons, List.sum_cons, dot]

/-- The coefficients less a multiple of those of a pivot row. -/
def eliminated (factor : ℚ) (as ps : List ℚ) : List ℚ :=
  List.zipWith (fun a p => a - factor * p) as ps

theorem length_eliminated {factor : ℚ} {as ps : List ℚ} (h : as.length = ps.length) :
    (eliminated factor as ps).length = ps.length := by
  rw [eliminated, List.length_zipWith, h, min_self]

/-- Nothing changes if the multiple is zero. -/
theorem eliminated_zero : ∀ {as ps : List ℚ}, as.length = ps.length → eliminated 0 as ps = as
  | [], [], _ => rfl
  | a :: as, p :: ps, h => by
      have ih := eliminated_zero (Nat.succ.inj h)
      rw [eliminated] at ih ⊢
      rw [List.zipWith_cons_cons, ih, zero_mul, sub_zero]

/-- The linear form of the difference is the difference of the linear forms. -/
theorem dot_eliminated (factor : ℚ) : ∀ {as ps : List ℚ} (zs : List ℚ), as.length = ps.length →
    dot (eliminated factor as ps) zs = dot as zs - factor * dot ps zs
  | [], [], zs, _ => by simp [eliminated]
  | a :: as, p :: ps, [], _ => by simp
  | a :: as, p :: ps, z :: zs, h => by
      have ih := dot_eliminated factor zs (Nat.succ.inj h)
      rw [eliminated] at ih ⊢
      rw [List.zipWith_cons_cons, dot_cons, dot_cons, dot_cons, ih]
      ring

/-- **Where the pivot row holds, a row holds just where it does without the first unknown.** -/
theorem dot_eliminate {p a z pc c : ℚ} {ps as zs : List ℚ} (hp : p ≠ 0)
    (hlen : as.length = ps.length) (hpivot : dot (p :: ps) (z :: zs) = pc) :
    dot (a :: as) (z :: zs) = c ↔ dot (eliminated (a / p) as ps) zs = c - a / p * pc := by
  rw [dot_cons] at hpivot
  rw [dot_cons, dot_eliminated _ _ hlen, ← hpivot]
  have hz : a / p * (p * z + dot ps zs) = a * z + a / p * dot ps zs := by
    field_simp
  rw [hz]
  constructor
  · intro h
    linear_combination h
  · intro h
    linear_combination h

/-- The pivot row determines its first unknown from the others. -/
theorem dot_pivot {p z pc : ℚ} {ps zs : List ℚ} (hp : p ≠ 0) :
    dot (p :: ps) (z :: zs) = pc ↔ z = (pc - dot ps zs) / p := by
  rw [dot_cons, eq_div_iff hp]
  constructor
  · intro h
    linear_combination h
  · intro h
    linear_combination h

/-! ## Steps of elimination -/

namespace LinearSystem

section pivot

variable {K : Type} [Scalar K] {rows others pivots : List (Row K)} {pivot : Row K}
  {left column : ℕ} {e : SymbolicError}

/-- The search below the first row finds a row with another head than zero, and keeps all rows. -/
theorem exchange_spec {first : Row K} : ∀ {rest passed : List (Row K)},
    choosePivot.exchange first passed rest = some (pivot, others) →
      pivot.head.isZero = false ∧ (passed.reverse ++ first :: rest).Perm (pivot :: others)
  | [], passed, h => nomatch h
  | r :: rest, passed, h => by
      unfold choosePivot.exchange at h
      split at h
      · rename_i hr
        obtain ⟨hhead, hperm⟩ := exchange_spec h
        refine ⟨hhead, List.Perm.trans ?_ hperm⟩
        rw [List.reverse_cons, List.append_assoc]
        exact (List.Perm.swap r first rest).append_left passed.reverse
      · rename_i hr
        cases h
        refine ⟨Bool.eq_false_iff.mpr hr, ?_⟩
        have hswap := (List.Perm.swap pivot first rest).append_left passed.reverse
        exact hswap.trans List.perm_middle

/-- The pivot has another head than zero, and all rows are kept. -/
theorem choosePivot_spec (h : choosePivot rows = some (pivot, others)) :
    pivot.head.isZero = false ∧ rows.Perm (pivot :: others) := by
  cases rows with
  | nil => nomatch h
  | cons r rest =>
      rw [choosePivot] at h
      split at h
      · exact exchange_spec h
      · rename_i hr
        cases h
        exact ⟨Bool.eq_false_iff.mpr hr, List.Perm.refl _⟩

/-- The search below the first row fails only if all heads are zero. -/
theorem exchange_eq_none {first : Row K} : ∀ {rest passed : List (Row K)},
    choosePivot.exchange first passed rest = none → ∀ r ∈ rest, r.head.isZero = true
  | [], _, _, r, hr => nomatch hr
  | s :: rest, passed, h, r, hr => by
      unfold choosePivot.exchange at h
      split at h
      · rename_i hs
        rcases List.mem_cons.mp hr with rfl | hr
        · exact hs
        · exact exchange_eq_none h r hr
      · cases h

/-- There is no pivot only if all heads are zero. -/
theorem choosePivot_eq_none (h : choosePivot rows = none) : ∀ r ∈ rows, r.head.isZero = true := by
  cases rows with
  | nil => exact fun r hr => nomatch hr
  | cons s rest =>
      rw [choosePivot] at h
      split at h
      · rename_i hs
        intro r hr
        rcases List.mem_cons.mp hr with rfl | hr
        · exact hs
        · exact exchange_eq_none h r hr
      · cases h

/-- Without a pivot elimination fails. -/
theorem triangulate_of_none (h : choosePivot rows = none) :
    triangulate (left + 1) column rows = .error (.singular column) := by
  rw [triangulate, h]

/-- With a pivot elimination goes on with the other rows. -/
theorem triangulate_of_some (h : choosePivot rows = some (pivot, others)) :
    triangulate (left + 1) column rows =
      (triangulate left (column + 1) (others.map (Row.eliminate pivot))).map (pivot :: ·) := by
  rw [triangulate, h]
  show Except.bind (triangulate left (column + 1) (others.map (Row.eliminate pivot))) _ = _
  cases triangulate left (column + 1) (others.map (Row.eliminate pivot)) <;> rfl

/-- How elimination of a column succeeds. -/
theorem triangulate_eq_ok (h : triangulate (left + 1) column rows = .ok pivots) :
    ∃ pivot others lower, choosePivot rows = some (pivot, others) ∧
      triangulate left (column + 1) (others.map (Row.eliminate pivot)) = .ok lower ∧
        pivots = pivot :: lower := by
  rcases hchoice : choosePivot rows with _ | ⟨pivot, others⟩
  · rw [triangulate_of_none hchoice] at h
    cases h
  · rw [triangulate_of_some hchoice] at h
    rcases hlower : triangulate left (column + 1) (others.map (Row.eliminate pivot)) with e | lower
    · rw [hlower] at h
      cases h
    · rw [hlower] at h
      cases h
      exact ⟨pivot, others, lower, rfl, hlower, rfl⟩

/-- How elimination of a column fails. -/
theorem triangulate_eq_error (h : triangulate (left + 1) column rows = .error e) :
    (choosePivot rows = none ∧ e = .singular column) ∨
      ∃ pivot others, choosePivot rows = some (pivot, others) ∧
        triangulate left (column + 1) (others.map (Row.eliminate pivot)) = .error e := by
  rcases hchoice : choosePivot rows with _ | ⟨pivot, others⟩
  · rw [triangulate_of_none hchoice] at h
    cases h
    exact .inl ⟨rfl, rfl⟩
  · rw [triangulate_of_some hchoice] at h
    rcases hlower : triangulate left (column + 1) (others.map (Row.eliminate pivot)) with e | lower
    · rw [hlower] at h
      cases h
      exact .inr ⟨pivot, others, rfl, hlower⟩
    · rw [hlower] at h
      cases h

end pivot

end LinearSystem

variable {K : Type} [ExactScalar K]

/-! ## Values of rows -/

namespace Row

/-- The coefficients have the values `as` and the right side has the value `c`. -/
structure HasValues (F : Functions ℚ) (ρ : Valuation ℚ) (r : Row K) (as : List ℚ) (c : ℚ) :
    Prop where
  /-- The coefficients have values. -/
  coeffs : valueAll F ρ r.coeffs = some as
  /-- The right side has a value. -/
  rhs : r.rhs.value F ρ = some c

/-- Everything in the row has a value, and there are `n` coefficients. -/
def Defined (F : Functions ℚ) (ρ : Valuation ℚ) (n : ℕ) (r : Row K) : Prop :=
  ∃ as c, r.HasValues F ρ as c ∧ as.length = n

/-- The equation of the row holds of the unknowns `zs`. -/
def Holds (F : Functions ℚ) (ρ : Valuation ℚ) (zs : List ℚ) (r : Row K) : Prop :=
  ∃ as c, r.HasValues F ρ as c ∧ dot as zs = c

/-- The first columns of the row, taken `cs` times, add up to zero. -/
def Vanishes (F : Functions ℚ) (ρ : Valuation ℚ) (cs : List ℚ) (r : Row K) : Prop :=
  ∃ as, valueAll F ρ r.coeffs = some as ∧ dot as cs = 0

variable {F : Functions ℚ} {ρ : Valuation ℚ} {r : Row K} {a c : ℚ} {as : List ℚ}

/-- A row with values holds if its linear form has the value of the right side. -/
theorem HasValues.holds_iff (h : r.HasValues F ρ as c) {zs : List ℚ} :
    r.Holds F ρ zs ↔ dot as zs = c := by
  constructor
  · rintro ⟨bs, d, hbs, hd⟩
    rw [Option.some_inj.mp (h.coeffs.symm.trans hbs.coeffs),
      Option.some_inj.mp (h.rhs.symm.trans hbs.rhs), hd]
  · exact fun hc => ⟨as, c, h, hc⟩

/-- The columns of a row with values add up to zero if its linear form does. -/
theorem HasValues.vanishes_iff (h : r.HasValues F ρ as c) {cs : List ℚ} :
    r.Vanishes F ρ cs ↔ dot as cs = 0 := by
  constructor
  · rintro ⟨bs, hbs, hd⟩
    rw [Option.some_inj.mp (h.coeffs.symm.trans hbs), hd]
  · exact fun hc => ⟨as, h.coeffs, hc⟩

/-- The head of a row has the first value, the rest the others. -/
theorem HasValues.split (h : r.HasValues F ρ (a :: as) c) :
    r.head.value F ρ = some a ∧ valueAll F ρ r.coeffs.tail = some as := by
  obtain ⟨_ | ⟨e, es⟩, d⟩ := r
  · nomatch h.coeffs
  · obtain ⟨x, xs, hx, hxs, heq⟩ := valueAll_cons_eq_some.mp h.coeffs
    cases heq
    exact ⟨hx, hxs⟩

end Row

section elimination

variable {R : Reading K ℚ} {ρ : Valuation ℚ}

/-- The value of an entry after elimination. -/
theorem Row.value_reduceEntry {factor e q : Expr K} {f x y : ℚ}
    (hf : factor.value R.toFunctions ρ = some f) (he : e.value R.toFunctions ρ = some x)
    (hq : q.value R.toFunctions ρ = some y) :
    (Row.reduceEntry factor e q).value R.toFunctions ρ = some (x - f * y) :=
  value_simplify (value_sub he (value_mul hf hq))

/-- The values of the entries after elimination. -/
theorem Row.valueAll_reduceEntry {factor : Expr K} {f : ℚ}
    (hf : factor.value R.toFunctions ρ = some f) :
    ∀ {es qs : List (Expr K)} {as ps : List ℚ}, valueAll R.toFunctions ρ es = some as →
      valueAll R.toFunctions ρ qs = some ps →
        valueAll R.toFunctions ρ (List.zipWith (Row.reduceEntry factor) es qs) =
          some (eliminated f as ps)
  | [], qs, as, ps, has, hps => by
      cases has
      rfl
  | e :: es, [], as, ps, has, hps => by
      cases hps
      rw [eliminated, List.zipWith_nil_right, List.zipWith_nil_right]
      rfl
  | e :: es, q :: qs, as, ps, has, hps => by
      obtain ⟨x, xs, hx, hxs, rfl⟩ := valueAll_cons_eq_some.mp has
      obtain ⟨y, ys, hy, hys, rfl⟩ := valueAll_cons_eq_some.mp hps
      exact valueAll_cons_eq_some.mpr
        ⟨_, _, Row.value_reduceEntry hf hx hy, Row.valueAll_reduceEntry hf hxs hys, rfl⟩

/-- **An eliminated row is the row less the multiple of the pivot row.** -/
theorem Row.hasValues_eliminate {pivot r : Row K} {p a pc c : ℚ} {ps as : List ℚ}
    (hpivot : pivot.HasValues R.toFunctions ρ (p :: ps) pc) (hp : p ≠ 0)
    (hr : r.HasValues R.toFunctions ρ (a :: as) c) (hlen : as.length = ps.length) :
    (Row.eliminate pivot r).HasValues R.toFunctions ρ (eliminated (a / p) as ps)
      (c - a / p * pc) := by
  obtain ⟨hhead, htail⟩ := hr.split
  obtain ⟨hphead, hptail⟩ := hpivot.split
  unfold Row.eliminate
  split
  · rename_i hzero
    rw [value_eq_zero hzero hhead, zero_div, eliminated_zero hlen, zero_mul, sub_zero]
    exact ⟨htail, hr.rhs⟩
  · have hfactor : (Expr.div r.head pivot.head).simplify.value R.toFunctions ρ = some (a / p) :=
      value_simplify
        (value_div hhead hphead (isUnit_iff_ne_zero.mpr hp) (div_mul_cancel₀ a hp))
    exact ⟨Row.valueAll_reduceEntry hfactor htail hptail,
      Row.value_reduceEntry hfactor hr.rhs hpivot.rhs⟩

end elimination

/-! ## Chosen pivots -/

namespace LinearSystem

/-- The pivots that elimination chooses for the columns that are left, until it fails. -/
def chosenPivots : (left : ℕ) → List (Row K) → List (Expr K)
  | 0, _ => []
  | left + 1, rows =>
      match choosePivot rows with
      | none => []
      | some (pivot, others) => pivot.head :: chosenPivots left (others.map (Row.eliminate pivot))

/-- The first chosen pivot and the ones after it. -/
theorem chosenPivots_succ {rows others : List (Row K)} {pivot : Row K} {left : ℕ}
    (h : choosePivot rows = some (pivot, others)) :
    chosenPivots (left + 1) rows =
      pivot.head :: chosenPivots left (others.map (Row.eliminate pivot)) := by
  rw [chosenPivots, h]

/-- After success the chosen pivots are the heads of the pivot rows. -/
theorem chosenPivots_of_triangulate : ∀ {left column : ℕ} {rows pivots : List (Row K)},
    triangulate left column rows = .ok pivots → chosenPivots left rows = pivots.map Row.head
  | 0, _, _, _, h => by
      cases h
      rfl
  | left + 1, column, rows, pivots, h => by
      obtain ⟨pivot, others, lower, hchoice, hlower, rfl⟩ := triangulate_eq_ok h
      rw [chosenPivots_succ hchoice, List.map_cons, chosenPivots_of_triangulate hlower]

/-! ## Back substitution -/

section substitution

variable {R : Reading K ℚ} {ρ : Valuation ℚ}

/-- What is left of a right side after subtracting the terms of known unknowns. -/
theorem value_subtractTerms : ∀ {es xs : List (Expr K)} {ps zs : List ℚ} {acc : Expr K} {c : ℚ},
    valueAll R.toFunctions ρ es = some ps → valueAll R.toFunctions ρ xs = some zs →
      acc.value R.toFunctions ρ = some c →
        ((List.zip es xs).foldl (fun acc p => Expr.sub acc (.mul p.1 p.2)) acc).value
          R.toFunctions ρ = some (c - dot ps zs)
  | [], xs, ps, zs, acc, c, hps, hzs, hc => by
      cases hps
      rw [dot_nil_left, sub_zero]
      exact hc
  | e :: es, [], ps, zs, acc, c, hps, hzs, hc => by
      cases hzs
      rw [dot_nil_right, sub_zero]
      exact hc
  | e :: es, x :: xs, ps, zs, acc, c, hps, hzs, hc => by
      obtain ⟨p, qs, hp, hqs, rfl⟩ := valueAll_cons_eq_some.mp hps
      obtain ⟨z, ys, hz, hys, rfl⟩ := valueAll_cons_eq_some.mp hzs
      have hacc : (Expr.sub acc (.mul e x)).value R.toFunctions ρ = some (c - p * z) :=
        value_sub hc (value_mul hp hz)
      rw [List.zip_cons_cons, List.foldl_cons, dot_cons, ← sub_sub]
      exact value_subtractTerms hqs hys hacc

/-- The first unknown of a pivot row from the values of those after it. -/
theorem value_solveRow {r : Row K} {solved : List (Expr K)} {p c : ℚ} {ps zs : List ℚ}
    (hr : r.HasValues R.toFunctions ρ (p :: ps) c) (hp : p ≠ 0)
    (hzs : valueAll R.toFunctions ρ solved = some zs) :
    (solveRow r solved).value R.toFunctions ρ = some ((c - dot ps zs) / p) := by
  obtain ⟨hhead, htail⟩ := hr.split
  exact value_simplify (value_div (value_subtractTerms htail hzs hr.rhs) hhead
    (isUnit_iff_ne_zero.mpr hp) (div_mul_cancel₀ _ hp))

end substitution

/-! ## One column -/

section column

variable {R : Reading K ℚ} {ρ : Valuation ℚ} {pivot r : Row K} {p pc z : ℚ} {ps zs : List ℚ}
  {n : ℕ}

/-- Elimination keeps rows defined, with one column less. -/
theorem defined_eliminate (hpivot : pivot.HasValues R.toFunctions ρ (p :: ps) pc) (hp : p ≠ 0)
    (hlen : ps.length = n) (hr : r.Defined R.toFunctions ρ (n + 1)) :
    (Row.eliminate pivot r).Defined R.toFunctions ρ n := by
  obtain ⟨_ | ⟨a, as⟩, c, hr, hn⟩ := hr
  · nomatch hn
  · have has : as.length = ps.length := (Nat.succ.inj hn).trans hlen.symm
    exact ⟨_, _, Row.hasValues_eliminate hpivot hp hr has, (length_eliminated has).trans hlen⟩

/-- Where the pivot row holds, a row and what elimination makes of it hold alike. -/
theorem holds_eliminate (hpivot : pivot.HasValues R.toFunctions ρ (p :: ps) pc) (hp : p ≠ 0)
    (hlen : ps.length = n) (hr : r.Defined R.toFunctions ρ (n + 1))
    (hz : dot (p :: ps) (z :: zs) = pc) :
    r.Holds R.toFunctions ρ (z :: zs) ↔ (Row.eliminate pivot r).Holds R.toFunctions ρ zs := by
  obtain ⟨_ | ⟨a, as⟩, c, hr, hn⟩ := hr
  · nomatch hn
  · have has : as.length = ps.length := (Nat.succ.inj hn).trans hlen.symm
    rw [hr.holds_iff, (Row.hasValues_eliminate hpivot hp hr has).holds_iff]
    exact dot_eliminate hp has hz

/-- Where the columns of the pivot row add up to zero, those of a row and of what elimination makes
of it do alike. -/
theorem vanishes_eliminate (hpivot : pivot.HasValues R.toFunctions ρ (p :: ps) pc) (hp : p ≠ 0)
    (hlen : ps.length = n) (hr : r.Defined R.toFunctions ρ (n + 1))
    (hz : dot (p :: ps) (z :: zs) = 0) :
    r.Vanishes R.toFunctions ρ (z :: zs) ↔
      (Row.eliminate pivot r).Vanishes R.toFunctions ρ zs := by
  obtain ⟨_ | ⟨a, as⟩, c, hr, hn⟩ := hr
  · nomatch hn
  · have has : as.length = ps.length := (Nat.succ.inj hn).trans hlen.symm
    rw [hr.vanishes_iff, (Row.hasValues_eliminate hpivot hp hr has).vanishes_iff,
      dot_eliminate hp has hz, mul_zero, sub_zero]

end column

/-! ## All columns -/

section run

variable {R : Reading K ℚ} {ρ : Valuation ℚ} {rows : List (Row K)}

/-- A chosen pivot row has values, the first of them is not zero, and so has every other row. -/
theorem exists_pivotValues {pivot : Row K} {others : List (Row K)} {n : ℕ}
    (hchoice : choosePivot rows = some (pivot, others))
    (hdef : ∀ r ∈ rows, r.Defined R.toFunctions ρ (n + 1))
    (hhead : pivot.head.value R.toFunctions ρ ≠ some 0) :
    ∃ p ps pc, pivot.HasValues R.toFunctions ρ (p :: ps) pc ∧ p ≠ 0 ∧ ps.length = n ∧
      ∀ r ∈ others, r.Defined R.toFunctions ρ (n + 1) := by
  have hmem : ∀ r, r ∈ rows ↔ r = pivot ∨ r ∈ others := fun r =>
    (choosePivot_spec hchoice).2.mem_iff.trans List.mem_cons
  obtain ⟨_ | ⟨p, ps⟩, pc, hpivot, hn⟩ := hdef pivot ((hmem pivot).mpr (.inl rfl))
  · nomatch hn
  · refine ⟨p, ps, pc, hpivot, ?_, Nat.succ.inj hn, fun r hr => hdef r ((hmem r).mpr (.inr hr))⟩
    rintro rfl
    exact hhead hpivot.split.1

/-- All rows hold if the pivot row does and all that elimination makes of the others do. -/
theorem forall_holds_pivot {pivot : Row K} {others : List (Row K)} {n : ℕ} {p pc z : ℚ}
    {ps zs : List ℚ} (hchoice : choosePivot rows = some (pivot, others))
    (hpivot : pivot.HasValues R.toFunctions ρ (p :: ps) pc) (hp : p ≠ 0) (hlen : ps.length = n)
    (hothers : ∀ r ∈ others, r.Defined R.toFunctions ρ (n + 1)) :
    (∀ r ∈ rows, r.Holds R.toFunctions ρ (z :: zs)) ↔ dot (p :: ps) (z :: zs) = pc ∧
      ∀ r ∈ others.map (Row.eliminate pivot), r.Holds R.toFunctions ρ zs := by
  have hrows : (∀ r ∈ rows, r.Holds R.toFunctions ρ (z :: zs)) ↔
      dot (p :: ps) (z :: zs) = pc ∧ ∀ r ∈ others, r.Holds R.toFunctions ρ (z :: zs) := by
    rw [← hpivot.holds_iff, ← List.forall_mem_cons]
    exact forall_congr' fun r => imp_congr (choosePivot_spec hchoice).2.mem_iff Iff.rfl
  rw [hrows, List.forall_mem_map]
  refine and_congr_right fun hz => forall₂_congr fun r hr => ?_
  exact holds_eliminate hpivot hp hlen (hothers r hr) hz

/-- **Elimination and back substitution find the only solution.** -/
theorem triangulate_solves : ∀ {left column : ℕ} {rows pivots : List (Row K)},
    triangulate left column rows = .ok pivots → rows.length = left →
      (∀ r ∈ rows, r.Defined R.toFunctions ρ left) →
        (∀ p ∈ chosenPivots left rows, p.value R.toFunctions ρ ≠ some 0) →
          ∃ xs, valueAll R.toFunctions ρ (backSubstitute pivots) = some xs ∧ xs.length = left ∧
            ∀ zs, zs.length = left → ((∀ r ∈ rows, r.Holds R.toFunctions ρ zs) ↔ zs = xs)
  | 0, _, rows, _, h, hlen, _, _ => by
      cases h
      cases List.length_eq_zero_iff.mp hlen
      refine ⟨[], rfl, rfl, fun zs hzs => ?_⟩
      simp [List.length_eq_zero_iff.mp hzs]
  | left + 1, column, rows, pivots, h, hlen, hdef, hp => by
      obtain ⟨pivot, others, lower, hchoice, hlower, rfl⟩ := triangulate_eq_ok h
      rw [chosenPivots_succ hchoice] at hp
      obtain ⟨p, ps, pc, hpivot, hp0, hpslen, hothers⟩ :=
        exists_pivotValues hchoice hdef (hp _ List.mem_cons_self)
      have hperm := (choosePivot_spec hchoice).2
      have holen : (others.map (Row.eliminate pivot)).length = left := by
        rw [List.length_map]
        exact Nat.succ.inj (hperm.length_eq.symm.trans hlen)
      -- the rows below the pivot row have the solution `xs` by induction
      obtain ⟨xs, hxs, hxslen, hsolve⟩ := triangulate_solves hlower holen
        (List.forall_mem_map.mpr fun r hr => defined_eliminate hpivot hp0 hpslen (hothers r hr))
        fun q hq => hp q (List.mem_cons_of_mem _ hq)
      refine ⟨(pc - dot ps xs) / p :: xs,
        valueAll_cons_eq_some.mpr ⟨_, _, value_solveRow hpivot hp0 hxs, hxs, rfl⟩,
        congrArg Nat.succ hxslen, ?_⟩
      rintro (_ | ⟨z, zs⟩) hzs
      · nomatch hzs
      rw [forall_holds_pivot hchoice hpivot hp0 hpslen hothers, hsolve zs (Nat.succ.inj hzs),
        dot_pivot hp0, List.cons_eq_cons]
      refine and_congr_left fun hzs => ?_
      rw [hzs]

/-- **Elimination fails only if the columns up to the one it names depend on each other.** -/
theorem triangulate_singular : ∀ {left column : ℕ} {rows : List (Row K)} {e : SymbolicError},
    triangulate left column rows = .error e →
      (∀ r ∈ rows, r.Defined R.toFunctions ρ left) →
        (∀ p ∈ chosenPivots left rows, p.value R.toFunctions ρ ≠ some 0) →
          ∃ k < left, e = .singular (column + k) ∧ ∃ cs : List ℚ, cs.length = k + 1 ∧
            (∃ c ∈ cs, c ≠ 0) ∧ ∀ r ∈ rows, r.Vanishes R.toFunctions ρ cs
  | 0, _, _, _, h, _, _ => nomatch h
  | left + 1, column, rows, e, h, hdef, hp => by
      rcases triangulate_eq_error h with ⟨hchoice, rfl⟩ | ⟨pivot, others, hchoice, hlower⟩
      · -- all heads are zero, so the first column is
        refine ⟨0, Nat.succ_pos left, rfl, [1], rfl, ⟨1, List.mem_cons_self, one_ne_zero⟩, ?_⟩
        intro r hr
        obtain ⟨_ | ⟨a, as⟩, c, hr', hn⟩ := hdef r hr
        · nomatch hn
        · rw [hr'.vanishes_iff, dot_cons, dot_nil_right,
            value_eq_zero (choosePivot_eq_none hchoice r hr) hr'.split.1, zero_mul, add_zero]
      · rw [chosenPivots_succ hchoice] at hp
        obtain ⟨p, ps, pc, hpivot, hp0, hpslen, hothers⟩ :=
          exists_pivotValues hchoice hdef (hp _ List.mem_cons_self)
        obtain ⟨k, hk, rfl, cs, hcs, hne, hvanish⟩ := triangulate_singular hlower
          (List.forall_mem_map.mpr fun r hr => defined_eliminate hpivot hp0 hpslen (hothers r hr))
          fun q hq => hp q (List.mem_cons_of_mem _ hq)
        -- the multiple of the first column is what the pivot row asks for
        have hdot : dot (p :: ps) ((0 - dot ps cs) / p :: cs) = 0 := (dot_pivot hp0).mpr rfl
        refine ⟨k + 1, Nat.succ_lt_succ hk, ?_, (0 - dot ps cs) / p :: cs, congrArg Nat.succ hcs,
          hne.imp fun c hc => ⟨List.mem_cons_of_mem _ hc.1, hc.2⟩, fun r hr => ?_⟩
        · rw [Nat.add_assoc, Nat.add_comm 1 k]
        · rcases List.mem_cons.mp ((choosePivot_spec hchoice).2.mem_iff.mp hr) with rfl | hr
          · exact hpivot.vanishes_iff.mpr hdot
          · exact (vanishes_eliminate hpivot hp0 hpslen (hothers r hr) hdot).mpr
              (List.forall_mem_map.mp hvanish r hr)

end run

end LinearSystem

/-! ## Matrices -/

/-- A linear form of as many unknowns as `g` has, in the first coefficients of `f`. -/
theorem dot_ofFn : ∀ {m n : ℕ} (h : m ≤ n) (f : Fin n → ℚ) (g : Fin m → ℚ),
    dot (List.ofFn f) (List.ofFn g) = ∑ j, f (Fin.castLE h j) * g j
  | 0, _, _, f, g => by simp
  | m + 1, 0, h, _, _ => absurd h (Nat.not_succ_le_zero m)
  | m + 1, n + 1, h, f, g => by
      rw [List.ofFn_succ, List.ofFn_succ, dot_cons, Fin.sum_univ_succ,
        dot_ofFn (Nat.le_of_succ_le_succ h) (fun i => f i.succ) fun j => g j.succ]
      rfl

/-- A linear form of a row of a matrix is an entry of the product of matrix and unknowns. -/
theorem dot_row {n : ℕ} (A : Matrix (Fin n) (Fin n) ℚ) (Y : Fin n → ℚ) (i : Fin n) :
    dot (List.ofFn (A i)) (List.ofFn Y) = A.mulVec Y i :=
  dot_ofFn le_rfl (A i) Y

/-- The grid with an entry in every place. -/
def Grid.ofFn {α : Type} {m n : ℕ} (D : Fin m → Fin n → α) : Grid α where
  columns := n
  rows := List.ofFn fun i => List.ofFn (D i)
  full row hrow := by
    obtain ⟨i, rfl⟩ := (List.mem_ofFn' _ _).mp hrow
    exact List.length_ofFn

/-- The entries of a grid have the values of a matrix. -/
structure Grid.HasValues (F : Functions ℚ) (ρ : Valuation ℚ) {m n : ℕ} (g : Grid (Expr K))
    (A : Matrix (Fin m) (Fin n) ℚ) : Prop where
  /-- There are as many columns. -/
  columns : g.columns = n
  /-- The rows have the values of the rows of the matrix. -/
  rows : g.rows.map (valueAll F ρ) = List.ofFn fun i => some (List.ofFn (A i))

section matrix

variable {F : Functions ℚ} {ρ : Valuation ℚ} {m n : ℕ} {a : Grid (Expr K)} {b : List (Expr K)}
  {A : Matrix (Fin m) (Fin n) ℚ} {B : Fin m → ℚ}

/-- A grid has values if all its entries have. -/
theorem Grid.hasValues_ofFn {D : Fin m → Fin n → Expr K}
    (h : ∀ i j, (D i j).value F ρ = some (A i j)) : (Grid.ofFn D).HasValues F ρ A := by
  refine ⟨rfl, ?_⟩
  rw [Grid.ofFn, List.map_ofFn]
  exact congrArg List.ofFn (funext fun i => valueAll_ofFn (h i))

/-- A grid has as many rows as the matrix of its values. -/
theorem Grid.HasValues.height (hA : a.HasValues F ρ A) : a.height = m := by
  have h := congrArg List.length hA.rows
  rwa [List.length_map, List.length_ofFn] at h

/-- There are as many equations as rows. -/
theorem Grid.HasValues.length_equations (hA : a.HasValues F ρ A)
    (hB : valueAll F ρ b = some (List.ofFn B)) : (List.zipWith Row.mk a.rows b).length = m := by
  have hb := length_of_valueAll hB
  rw [List.length_ofFn] at hb
  rw [List.length_zipWith, show a.rows.length = m from hA.height, ← hb, min_self]

/-- The equations of a grid and its right sides have the values of the matrix and the vector. -/
theorem Grid.HasValues.equation (hA : a.HasValues F ρ A)
    (hB : valueAll F ρ b = some (List.ofFn B)) (i : Fin m)
    (hi : i < (List.zipWith Row.mk a.rows b).length) :
    (List.zipWith Row.mk a.rows b)[(i : ℕ)].HasValues F ρ (List.ofFn (A i)) (B i) := by
  obtain ⟨⟨columns, rows, hfull⟩, hrows⟩ : ∃ g, g = a := ⟨a, rfl⟩
  subst hrows
  obtain ⟨f, rfl⟩ := exists_eq_ofFn (show rows.length = m from hA.height)
  obtain ⟨g, rfl⟩ := exists_eq_ofFn ((length_of_valueAll hB).symm.trans List.length_ofFn)
  have hrow := hA.rows
  rw [List.map_ofFn, List.ofFn_inj] at hrow
  simp only [List.getElem_zipWith, List.getElem_ofFn]
  exact ⟨congrFun hrow i, value_of_valueAll_ofFn hB i⟩

/-- All equations have something if all rows of the matrix and the vector have. -/
theorem Grid.HasValues.forall_equations {p : Row K → Prop} (hA : a.HasValues F ρ A)
    (hB : valueAll F ρ b = some (List.ofFn B)) {q : Fin m → Prop}
    (hpq : ∀ i r, r.HasValues F ρ (List.ofFn (A i)) (B i) → (p r ↔ q i)) :
    (∀ r ∈ List.zipWith Row.mk a.rows b, p r) ↔ ∀ i, q i := by
  have hlen := hA.length_equations hB
  rw [List.forall_mem_iff_forall_getElem]
  constructor
  · intro h i
    have hi : i < (List.zipWith Row.mk a.rows b).length := hlen.symm ▸ i.isLt
    exact (hpq i _ (hA.equation hB i hi)).mp (h i hi)
  · intro h i hi
    exact (hpq ⟨i, hlen ▸ hi⟩ _ (hA.equation hB ⟨i, hlen ▸ hi⟩ hi)).mpr (h _)

end matrix

/-- A square system is solved by elimination and back substitution. -/
theorem solveLinear_of_square {a : Grid (Expr K)} {b : List (Expr K)} {n : ℕ}
    (hheight : a.height = n) (hcolumns : a.columns = n) (hb : b.length = n) :
    solveLinear a b = (LinearSystem.triangulate n 0 (List.zipWith Row.mk a.rows b)).map
      LinearSystem.backSubstitute := by
  subst hb
  unfold solveLinear
  rw [if_pos ⟨hheight, hcolumns⟩]
  show Except.bind (LinearSystem.triangulate b.length 0 (List.zipWith Row.mk a.rows b)) _ = _
  cases LinearSystem.triangulate b.length 0 (List.zipWith Row.mk a.rows b) <;> rfl

section square

variable {R : Reading K ℚ} {ρ : Valuation ℚ} {n : ℕ} {a : Grid (Expr K)} {b : List (Expr K)}
  {A : Matrix (Fin n) (Fin n) ℚ} {B : Fin n → ℚ}

/-- All equations of a square system are defined. -/
theorem Grid.HasValues.defined_equations {F : Functions ℚ} (hA : a.HasValues F ρ A)
    (hB : valueAll F ρ b = some (List.ofFn B)) :
    ∀ r ∈ List.zipWith Row.mk a.rows b, r.Defined F ρ n :=
  (hA.forall_equations hB fun _ _ hr =>
    iff_true_intro ⟨_, _, hr, List.length_ofFn⟩).mpr fun _ => trivial

/-- A solution that is found is defined, and is the only one. -/
theorem solveLinear_eq_ok {x : List (Expr K)} (h : solveLinear a b = .ok x)
    (hA : a.HasValues R.toFunctions ρ A) (hB : valueAll R.toFunctions ρ b = some (List.ofFn B))
    (hp : ∀ p ∈ LinearSystem.chosenPivots n (List.zipWith Row.mk a.rows b),
      p.value R.toFunctions ρ ≠ some 0) :
    ∃ X, valueAll R.toFunctions ρ x = some (List.ofFn X) ∧ ∀ Y, A.mulVec Y = B ↔ Y = X := by
  have hb : b.length = n := by rw [← length_of_valueAll hB, List.length_ofFn]
  rw [solveLinear_of_square hA.height hA.columns hb] at h
  rcases hrun : LinearSystem.triangulate n 0 (List.zipWith Row.mk a.rows b) with e | pivots
  · rw [hrun] at h
    cases h
  rw [hrun] at h
  cases h
  obtain ⟨xs, hxs, hlen, hsolve⟩ :=
    LinearSystem.triangulate_solves hrun (hA.length_equations hB) (hA.defined_equations hB) hp
  obtain ⟨X, rfl⟩ := exists_eq_ofFn hlen
  refine ⟨X, hxs, fun Y => ?_⟩
  have hY : (∀ r ∈ List.zipWith Row.mk a.rows b, r.Holds R.toFunctions ρ (List.ofFn Y)) ↔
      ∀ i, A.mulVec Y i = B i :=
    hA.forall_equations hB fun i r hr => by rw [hr.holds_iff, dot_row]
  rw [funext_iff, ← hY, hsolve _ List.length_ofFn, List.ofFn_inj]

/-- A failure names a column up to which the columns depend on each other. -/
theorem solveLinear_eq_error {e : SymbolicError} (h : solveLinear a b = .error e)
    (hA : a.HasValues R.toFunctions ρ A) (hB : valueAll R.toFunctions ρ b = some (List.ofFn B))
    (hp : ∀ p ∈ LinearSystem.chosenPivots n (List.zipWith Row.mk a.rows b),
      p.value R.toFunctions ρ ≠ some 0) :
    ∃ k, ∃ hk : k + 1 ≤ n, e = .singular k ∧
      ¬ LinearIndependent ℚ fun j : Fin (k + 1) => A.col (Fin.castLE hk j) := by
  have hb : b.length = n := by rw [← length_of_valueAll hB, List.length_ofFn]
  rw [solveLinear_of_square hA.height hA.columns hb] at h
  rcases hrun : LinearSystem.triangulate n 0 (List.zipWith Row.mk a.rows b) with e' | pivots
  · rw [hrun] at h
    cases h
    obtain ⟨k, hk, rfl, cs, hcs, ⟨c, hc, hc0⟩, hvanish⟩ :=
      LinearSystem.triangulate_singular hrun (hA.defined_equations hB) hp
    obtain ⟨g, rfl⟩ := exists_eq_ofFn hcs
    refine ⟨k, hk, by rw [Nat.zero_add], Fintype.not_linearIndependent_iff.mpr ⟨g, ?_, ?_⟩⟩
    · have hdot : ∀ i, dot (List.ofFn (A i)) (List.ofFn g) = 0 :=
        (hA.forall_equations hB fun i r hr => hr.vanishes_iff).mp hvanish
      ext i
      rw [Finset.sum_apply, Pi.zero_apply, ← hdot i, dot_ofFn hk]
      exact Finset.sum_congr rfl fun j _ => mul_comm _ _
    · obtain ⟨j, rfl⟩ := (List.mem_ofFn' g c).mp hc
      exact ⟨j, hc0⟩
  · rw [hrun] at h
    cases h

end square

/-- **Elimination finds the only solution or proves the matrix degenerate.**  Wherever all entries
are defined and no chosen pivot is zero, a solution that is found is defined and is the only one;
otherwise the columns up to the one that the failure names depend on each other. -/
theorem solveLinear_solves (R : Reading K ℚ) (ρ : Valuation ℚ) {n : ℕ} {a : Grid (Expr K)}
    {b : List (Expr K)} {A : Matrix (Fin n) (Fin n) ℚ} {B : Fin n → ℚ}
    (hA : a.HasValues R.toFunctions ρ A) (hB : valueAll R.toFunctions ρ b = some (List.ofFn B))
    (hp : ∀ p ∈ LinearSystem.chosenPivots n (List.zipWith Row.mk a.rows b),
      p.value R.toFunctions ρ ≠ some 0) :
    match solveLinear a b with
    | .ok x => ∃ X, valueAll R.toFunctions ρ x = some (List.ofFn X) ∧
        ∀ Y, A.mulVec Y = B ↔ Y = X
    | .error e => ∃ k, ∃ hk : k + 1 ≤ n, e = .singular k ∧
        ¬ LinearIndependent ℚ fun j : Fin (k + 1) => A.col (Fin.castLE hk j) := by
  split
  · rename_i x hx
    exact solveLinear_eq_ok hx hA hB hp
  · rename_i e he
    exact solveLinear_eq_error he hA hB hp

/-- Two rows are exchanged for a pivot: `y = 1` and `k * x + y = k + 1` where `k` is `2`. -/
theorem solveLinear_solves_after_exchange :
    let k : Expr (Exact .standard) := .sym "k"
    let a : Grid (Expr (Exact .standard)) := .ofRows [[zero, one], [k, one]]
    let b : List (Expr (Exact .standard)) := [one, add k one]
    let ρ : Valuation ℚ := fun α => if α = ⟨"k", 0⟩ then some 2 else none
    let A : Matrix (Fin 2) (Fin 2) ℚ := !![0, 1; 2, 1]
    let B : Fin 2 → ℚ := ![1, 3]
    a.HasValues Reading.standard.toFunctions ρ A ∧
      valueAll Reading.standard.toFunctions ρ b = some (List.ofFn B) ∧
      LinearSystem.chosenPivots 2 (List.zipWith Row.mk a.rows b) = [k, one] ∧
      ∃ x X, solveLinear a b = .ok x ∧
        valueAll Reading.standard.toFunctions ρ x = some (List.ofFn X) ∧
          ∀ Y, A.mulVec Y = B ↔ Y = X := by
  intro k a b ρ A B
  have hk : k.value Reading.standard.toFunctions ρ = some 2 := by simp [k, ρ, value]
  have hA : a.HasValues Reading.standard.toFunctions ρ A := by
    have hrows : a.rows = [[zero, one], [k, one]] := Grid.rows_ofRows (by simp)
    constructor
    · rfl
    · simp [hrows, A, valueAll, hk]
  have hB : valueAll Reading.standard.toFunctions ρ b = some (List.ofFn B) := by
    have hsum : (add k one).value Reading.standard.toFunctions ρ = some 3 :=
      (value_add hk value_one).trans (by norm_num)
    simp [b, B, valueAll, hsum]
  have hpivots : LinearSystem.chosenPivots 2 (List.zipWith Row.mk a.rows b) = [k, one] := rfl
  obtain ⟨x, hx⟩ : ∃ x, solveLinear a b = .ok x := ⟨_, rfl⟩
  have hsolve := solveLinear_solves Reading.standard ρ hA hB (by simp [hpivots, hk])
  rw [hx] at hsolve
  obtain ⟨X, hX, hunique⟩ := hsolve
  exact ⟨hA, hB, hpivots, x, X, hx, hX, hunique⟩

end FlatModel.Symbolic
