import Mathlib.LinearAlgebra.Matrix.NonsingularInverse
import FlatModel.Proofs.Elimination

/-!
# Numeric systems are decided

In a system of plain numbers the entries that elimination computes fold to numbers again, so the
test for the number zero, which only looks at the form of an entry, is the test for the value zero.

* `Expr.Folds` — the expression simplifies to a number that stands for a rational.
* `Row.StandsFor` — a row of numbers, and the rationals they stand for.
* `Row.standsFor_eliminate` — elimination keeps rows numeric.
* `Row.Scaled`, `LinearSystem.forall_scaled_pivot` — what elimination of a column does to the
  unknowns that give the right sides, or a multiple of them.
* `LinearSystem.triangulate_numeric`, `triangulate_numeric_error` — what elimination finds in rows of
  numbers, by induction on the columns that are left.
* `solveLinear_numbers` — a numeric system is solved exactly if its matrix is invertible, and
  otherwise the failure names the first column that depends on those before it.

Powers and calls of numbers do not occur in elimination, so nothing is asked of how they fold.
-/

namespace FlatModel.Symbolic

open FlatModel.Symbolic.Expr
open ExactScalar (toRat?)

variable {K : Type} [ExactScalar K]

/-- A linear form of unknowns that are all zero is zero. -/
theorem dot_of_forall_eq_zero {as zs : List ℚ} (h : ∀ z ∈ zs, z = 0) : dot as zs = 0 := by
  induction zs generalizing as with
  | nil => exact dot_nil_right as
  | cons z zs ih =>
      obtain ⟨hz, hzs⟩ := List.forall_mem_cons.mp h
      cases as with
      | nil => rfl
      | cons a as => rw [dot_cons, hz, mul_zero, ih hzs, zero_add]

/-! ## Numbers that entries fold to -/

namespace Expr

/-- The expression is a number, which stands for `q`. -/
def StandsFor (e : Expr K) (q : ℚ) : Prop := ∃ x, e = num x ∧ toRat? x = some q

/-- The expression simplifies to a number that stands for `q`. -/
def Folds (e : Expr K) (q : ℚ) : Prop := e.simplify.StandsFor q

variable {a b : Expr K} {p q : ℚ}

/-- A number is the number zero if it stands for zero. -/
theorem StandsFor.isZero_iff (h : a.StandsFor q) : a.isZero = true ↔ q = 0 := by
  obtain ⟨x, rfl, hx⟩ := h
  exact ExactScalar.isZero_iff hx

/-- A number stands for one rational. -/
theorem StandsFor.unique (hp : a.StandsFor p) (hq : a.StandsFor q) : p = q := by
  obtain ⟨x, rfl, hx⟩ := hp
  obtain ⟨y, hy, hq⟩ := hq
  cases hy
  exact Option.some_inj.mp (hx.symm.trans hq)

/-- Numbers fold to themselves. -/
theorem StandsFor.folds (h : a.StandsFor q) : a.Folds q := by
  obtain ⟨x, rfl, hx⟩ := h
  exact ⟨x, by rw [simplify], hx⟩

/-- Differences fold. -/
theorem Folds.sub (ha : a.Folds p) (hb : b.Folds q) : (Expr.sub a b).Folds (p - q) := by
  obtain ⟨x, hax, hx⟩ := ha
  obtain ⟨y, hby, hy⟩ := hb
  exact ⟨Scalar.sub x y, by rw [simplify, hax, hby, simplifySub], ExactScalar.toRat?_sub hx hy⟩

/-- Products fold. -/
theorem Folds.mul (ha : a.Folds p) (hb : b.Folds q) : (Expr.mul a b).Folds (p * q) := by
  obtain ⟨x, hax, hx⟩ := ha
  obtain ⟨y, hby, hy⟩ := hb
  exact ⟨Scalar.mul x y, by rw [simplify, hax, hby, simplifyMul], ExactScalar.toRat?_mul hx hy⟩

/-- Quotients fold, unless the divisor is zero. -/
theorem Folds.div (ha : a.Folds p) (hb : b.Folds q) (hq : q ≠ 0) :
    (Expr.div a b).Folds (p / q) := by
  obtain ⟨x, hax, hx⟩ := ha
  obtain ⟨y, hby, hy⟩ := hb
  have hy0 : Scalar.isZero y = false := (ExactScalar.isZero_eq_false_iff hy).mpr hq
  exact ⟨Scalar.div x y, by rw [simplify, hax, hby, simplifyDiv, hy0]; rfl,
    ExactScalar.toRat?_div hx hy hq⟩

end Expr

/-! ## Rows of numbers -/

namespace Row

/-- The coefficients are numbers that stand for `as`, the right side is one that stands for `c`. -/
structure StandsFor (r : Row K) (as : List ℚ) (c : ℚ) : Prop where
  /-- The coefficients are numbers. -/
  coeffs : List.Forall₂ Expr.StandsFor r.coeffs as
  /-- The right side is a number. -/
  rhs : r.rhs.StandsFor c

variable {pivot r : Row K} {a p c pc f : ℚ} {as ps : List ℚ}

/-- The head of a row stands for the first rational, the other coefficients for the others. -/
theorem StandsFor.split (h : r.StandsFor (a :: as) c) :
    r.head.StandsFor a ∧ List.Forall₂ Expr.StandsFor r.coeffs.tail as := by
  obtain ⟨coeffs, rhs⟩ := r
  cases h.coeffs with
  | cons ha has => exact ⟨ha, has⟩

/-- An entry after elimination. -/
theorem standsFor_reduceEntry {factor e q : Expr K} {x y : ℚ} (hf : factor.StandsFor f)
    (he : e.StandsFor x) (hq : q.StandsFor y) : (reduceEntry factor e q).StandsFor (x - f * y) :=
  he.folds.sub (hf.folds.mul hq.folds)

/-- The entries after elimination. -/
theorem forall₂_reduceEntry {factor : Expr K} (hf : factor.StandsFor f) {es qs : List (Expr K)}
    (has : List.Forall₂ Expr.StandsFor es as) (hps : List.Forall₂ Expr.StandsFor qs ps) :
    List.Forall₂ Expr.StandsFor (List.zipWith (reduceEntry factor) es qs)
      (eliminated f as ps) := by
  induction has generalizing qs ps with
  | nil => exact .nil
  | cons ha has ih =>
      cases hps with
      | nil => exact .nil
      | cons hp hps => exact .cons (standsFor_reduceEntry hf ha hp) (ih hps)

/-- **Elimination by a numeric pivot row keeps rows numeric.** -/
theorem standsFor_eliminate (hpivot : pivot.StandsFor (p :: ps) pc) (hp : p ≠ 0)
    (hr : r.StandsFor (a :: as) c) (hlen : as.length = ps.length) :
    (eliminate pivot r).StandsFor (eliminated (a / p) as ps) (c - a / p * pc) := by
  obtain ⟨hhead, htail⟩ := hr.split
  obtain ⟨hphead, hptail⟩ := hpivot.split
  unfold eliminate
  split
  · rename_i hzero
    rw [hhead.isZero_iff.mp hzero, zero_div, eliminated_zero hlen, zero_mul, sub_zero]
    exact ⟨htail, hr.rhs⟩
  · have hfactor : (Expr.div r.head pivot.head).simplify.StandsFor (a / p) :=
      hhead.folds.div hphead.folds hp
    exact ⟨forall₂_reduceEntry hfactor htail hptail,
      standsFor_reduceEntry hfactor hr.rhs hpivot.rhs⟩

/-- The row consists of numbers, `n` of them coefficients. -/
def IsNumeric (n : ℕ) (r : Row K) : Prop := ∃ as c, r.StandsFor as c ∧ as.length = n

/-- The unknowns `zs` give `t` times the right side of the row. -/
def Scaled (t : ℚ) (zs : List ℚ) (r : Row K) : Prop :=
  ∃ as c, r.StandsFor as c ∧ dot as zs = t * c

/-- A numeric row gives what its linear form gives. -/
theorem StandsFor.scaled_iff (h : r.StandsFor as c) {t : ℚ} {zs : List ℚ} :
    r.Scaled t zs ↔ dot as zs = t * c := by
  constructor
  · rintro ⟨bs, d, hbs, hd⟩
    have has : as = bs :=
      List.right_unique_forall₂' (fun _ _ _ hp hq => hp.unique hq) h.coeffs hbs.coeffs
    rw [has, h.rhs.unique hbs.rhs, hd]
  · exact fun hc => ⟨as, c, h, hc⟩

end Row

namespace LinearSystem

/-! ## One column -/

section column

variable {rows others : List (Row K)} {pivot r : Row K} {p pc z t : ℚ} {ps zs : List ℚ} {n : ℕ}

/-- A chosen pivot row of numbers does not begin with zero, and the other rows are numeric too. -/
theorem exists_numericPivot (hchoice : choosePivot rows = some (pivot, others))
    (hrows : ∀ r ∈ rows, r.IsNumeric (n + 1)) :
    ∃ p ps pc, pivot.StandsFor (p :: ps) pc ∧ p ≠ 0 ∧ ps.length = n ∧
      ∀ r ∈ others, r.IsNumeric (n + 1) := by
  obtain ⟨hhead, hperm⟩ := choosePivot_spec hchoice
  have hmem : ∀ r, r ∈ rows ↔ r = pivot ∨ r ∈ others := fun r =>
    hperm.mem_iff.trans List.mem_cons
  obtain ⟨_ | ⟨p, ps⟩, pc, hpivot, hn⟩ := hrows pivot ((hmem pivot).mpr (.inl rfl))
  · cases hn
  · refine ⟨p, ps, pc, hpivot, ?_, Nat.succ.inj hn, fun r hr => hrows r ((hmem r).mpr (.inr hr))⟩
    intro hp
    rw [hpivot.split.1.isZero_iff.mpr hp] at hhead
    cases hhead

/-- Without a pivot the first column is zero. -/
theorem scaled_of_choosePivot_eq_none (hchoice : choosePivot rows = none)
    (hrows : ∀ r ∈ rows, r.IsNumeric (n + 1)) : ∀ r ∈ rows, r.Scaled 0 [1] := by
  intro r hr
  obtain ⟨_ | ⟨a, as⟩, c, hnumeric, hn⟩ := hrows r hr
  · cases hn
  · have ha : a = 0 := hnumeric.split.1.isZero_iff.mp (choosePivot_eq_none hchoice r hr)
    rw [hnumeric.scaled_iff, dot_cons, dot_nil_right, ha]
    ring

/-- Elimination keeps rows numeric, with one column less. -/
theorem isNumeric_eliminate (hpivot : pivot.StandsFor (p :: ps) pc) (hp : p ≠ 0)
    (hlen : ps.length = n) (hr : r.IsNumeric (n + 1)) : (Row.eliminate pivot r).IsNumeric n := by
  obtain ⟨_ | ⟨a, as⟩, c, hr, hn⟩ := hr
  · cases hn
  · have has : as.length = ps.length := (Nat.succ.inj hn).trans hlen.symm
    exact ⟨_, _, Row.standsFor_eliminate hpivot hp hr has, (length_eliminated has).trans hlen⟩

/-- Where the pivot row gives `t` times its right side, a row does so just where the eliminated one
does. -/
theorem scaled_eliminate (hpivot : pivot.StandsFor (p :: ps) pc) (hp : p ≠ 0)
    (hlen : ps.length = n) (hr : r.IsNumeric (n + 1)) (hz : dot (p :: ps) (z :: zs) = t * pc) :
    r.Scaled t (z :: zs) ↔ (Row.eliminate pivot r).Scaled t zs := by
  obtain ⟨_ | ⟨a, as⟩, c, hr, hn⟩ := hr
  · cases hn
  · have has : as.length = ps.length := (Nat.succ.inj hn).trans hlen.symm
    have hscale : t * c - a / p * (t * pc) = t * (c - a / p * pc) := by ring
    rw [hr.scaled_iff, (Row.standsFor_eliminate hpivot hp hr has).scaled_iff,
      dot_eliminate hp has hz, hscale]

/-- **One column of elimination.**  All rows give `t` times their right sides if the pivot row does
and all that elimination makes of the others do. -/
theorem forall_scaled_pivot (hchoice : choosePivot rows = some (pivot, others))
    (hpivot : pivot.StandsFor (p :: ps) pc) (hp : p ≠ 0) (hlen : ps.length = n)
    (hothers : ∀ r ∈ others, r.IsNumeric (n + 1)) :
    (∀ r ∈ rows, r.Scaled t (z :: zs)) ↔ z = (t * pc - dot ps zs) / p ∧
      ∀ r ∈ others.map (Row.eliminate pivot), r.Scaled t zs := by
  have hrows : (∀ r ∈ rows, r.Scaled t (z :: zs)) ↔
      dot (p :: ps) (z :: zs) = t * pc ∧ ∀ r ∈ others, r.Scaled t (z :: zs) := by
    rw [← hpivot.scaled_iff, ← List.forall_mem_cons]
    exact forall_congr' fun r => imp_congr (choosePivot_spec hchoice).2.mem_iff Iff.rfl
  rw [hrows, List.forall_mem_map, ← dot_pivot hp]
  refine and_congr_right fun hz => forall₂_congr fun r hr => ?_
  exact scaled_eliminate hpivot hp hlen (hothers r hr) hz

end column

/-! ## Back substitution -/

/-- What is left of a right side after subtracting the terms of known unknowns. -/
theorem folds_subtractTerms {es xs : List (Expr K)} {ps zs : List ℚ} {acc : Expr K} {c : ℚ}
    (hps : List.Forall₂ Expr.StandsFor es ps) (hzs : List.Forall₂ Expr.StandsFor xs zs)
    (hc : acc.Folds c) :
    ((List.zip es xs).foldl (fun acc p => Expr.sub acc (.mul p.1 p.2)) acc).Folds
      (c - dot ps zs) := by
  induction hps generalizing xs zs acc c with
  | nil => rwa [dot_nil_left, sub_zero]
  | cons hp hps ih =>
      cases hzs with
      | nil => rwa [dot_nil_right, sub_zero]
      | cons hz hzs =>
          rw [dot_cons, ← sub_sub]
          exact ih hzs (hc.sub (hp.folds.mul hz.folds))

/-- The first unknown of a numeric pivot row is a number. -/
theorem standsFor_solveRow {r : Row K} {solved : List (Expr K)} {p c : ℚ} {ps zs : List ℚ}
    (hr : r.StandsFor (p :: ps) c) (hp : p ≠ 0) (hzs : List.Forall₂ Expr.StandsFor solved zs) :
    (solveRow r solved).StandsFor ((c - dot ps zs) / p) := by
  obtain ⟨hhead, htail⟩ := hr.split
  exact (folds_subtractTerms htail hzs hr.rhs.folds).div hhead.folds hp

/-! ## All columns -/

/-- **What elimination solves is a vector of numbers, and nothing else solves the rows.** -/
theorem triangulate_numeric {left column : ℕ} {rows pivots : List (Row K)}
    (h : triangulate left column rows = .ok pivots) (hlen : rows.length = left)
    (hrows : ∀ r ∈ rows, r.IsNumeric left) :
    ∃ xs, List.Forall₂ Expr.StandsFor (backSubstitute pivots) xs ∧ xs.length = left ∧
      ∀ zs, zs.length = left → ((∀ r ∈ rows, r.Scaled 1 zs) ↔ zs = xs) := by
  induction left generalizing column rows pivots with
  | zero =>
      cases h
      cases List.length_eq_zero_iff.mp hlen
      refine ⟨[], .nil, rfl, fun zs hzs => ?_⟩
      simp [List.length_eq_zero_iff.mp hzs]
  | succ left ih =>
      obtain ⟨pivot, others, lower, hchoice, hlower, rfl⟩ := triangulate_eq_ok h
      obtain ⟨p, ps, pc, hpivot, hp0, hpslen, hothers⟩ := exists_numericPivot hchoice hrows
      have holen : (others.map (Row.eliminate pivot)).length = left := by
        rw [List.length_map]
        exact Nat.succ.inj ((choosePivot_spec hchoice).2.length_eq.symm.trans hlen)
      -- the rows below the pivot row have the solution `xs` by induction
      obtain ⟨xs, hxs, hxslen, hsolve⟩ := ih hlower holen
        (List.forall_mem_map.mpr fun r hr => isNumeric_eliminate hpivot hp0 hpslen (hothers r hr))
      refine ⟨(pc - dot ps xs) / p :: xs, .cons (standsFor_solveRow hpivot hp0 hxs) hxs,
        congrArg Nat.succ hxslen, ?_⟩
      rintro (_ | ⟨z, zs⟩) hzs
      · cases hzs
      rw [forall_scaled_pivot hchoice hpivot hp0 hpslen hothers, hsolve zs (Nat.succ.inj hzs),
        one_mul, List.cons_eq_cons]
      refine and_congr_left fun hzs => ?_
      rw [hzs]

/-- **Elimination fails at the first column that depends on those before it.**  The columns up to
the one named have a combination that vanishes, those before it only the trivial one. -/
theorem triangulate_numeric_error {left column : ℕ} {rows : List (Row K)} {e : SymbolicError}
    (h : triangulate left column rows = .error e) (hrows : ∀ r ∈ rows, r.IsNumeric left) :
    ∃ k < left, e = .singular (column + k) ∧
      (∃ cs : List ℚ, cs.length = k + 1 ∧ (∃ c ∈ cs, c ≠ 0) ∧ ∀ r ∈ rows, r.Scaled 0 cs) ∧
        ∀ cs : List ℚ, cs.length = k → (∀ r ∈ rows, r.Scaled 0 cs) → ∀ c ∈ cs, c = 0 := by
  induction left generalizing column rows with
  | zero => cases h
  | succ left ih =>
      rcases triangulate_eq_error h with ⟨hchoice, rfl⟩ | ⟨pivot, others, hchoice, hlower⟩
      · -- all heads are zero, so the first column is
        refine ⟨0, Nat.succ_pos left, rfl, ⟨[1], rfl, ⟨1, List.mem_cons_self, one_ne_zero⟩,
          scaled_of_choosePivot_eq_none hchoice hrows⟩, fun cs hcs _ c hc => ?_⟩
        rw [List.length_eq_zero_iff.mp hcs] at hc
        cases hc
      · obtain ⟨p, ps, pc, hpivot, hp0, hpslen, hothers⟩ := exists_numericPivot hchoice hrows
        obtain ⟨k, hk, rfl, ⟨cs, hcs, hne, hvanish⟩, hindep⟩ := ih hlower
          (List.forall_mem_map.mpr fun r hr => isNumeric_eliminate hpivot hp0 hpslen (hothers r hr))
        refine ⟨k + 1, Nat.succ_lt_succ hk, ?_,
          -- the multiple of the first column is what the pivot row asks for
          ⟨(0 * pc - dot ps cs) / p :: cs, congrArg Nat.succ hcs,
            hne.imp fun c hc => ⟨List.mem_cons_of_mem _ hc.1, hc.2⟩,
            (forall_scaled_pivot hchoice hpivot hp0 hpslen hothers).mpr ⟨rfl, hvanish⟩⟩, ?_⟩
        · rw [Nat.add_assoc, Nat.add_comm 1 k]
        · rintro (_ | ⟨z, zs⟩) hzs hall
          · cases hzs
          obtain ⟨hz, hzeros⟩ := (forall_scaled_pivot hchoice hpivot hp0 hpslen hothers).mp hall
          have hzs0 := hindep zs (Nat.succ.inj hzs) hzeros
          refine List.forall_mem_cons.mpr ⟨?_, hzs0⟩
          rw [hz, dot_of_forall_eq_zero hzs0, zero_mul, sub_zero, zero_div]

end LinearSystem

/-! ## Matrices -/

/-- The grid of the numbers `α`. -/
def Grid.numbers {m n : ℕ} (α : Fin m → Fin n → K) : Grid (Expr K) :=
  .ofFn fun i j => num (α i j)

/-- The first `k + 1` columns of a matrix depend on each other. -/
def DependentUpTo {m n : ℕ} (A : Matrix (Fin m) (Fin n) ℚ) (k : ℕ) : Prop :=
  ∃ hk : k + 1 ≤ n, ¬ LinearIndependent ℚ fun j : Fin (k + 1) => A.col (Fin.castLE hk j)

/-- Two vectors combined place by place. -/
theorem zipWith_ofFn {α β γ : Type} {n : ℕ} (f : α → β → γ) (g : Fin n → α) (h : Fin n → β) :
    List.zipWith f (List.ofFn g) (List.ofFn h) = List.ofFn fun i => f (g i) (h i) := by
  refine List.ext_getElem (by simp) fun i _ _ => ?_
  simp only [List.getElem_zipWith, List.getElem_ofFn]

section numbers

variable {m n : ℕ} {α : Fin m → Fin n → K} {β : Fin m → K} {A : Matrix (Fin m) (Fin n) ℚ}
  {B : Fin m → ℚ}

/-- Numbers stand for the vector of their rationals. -/
theorem forall₂_standsFor_ofFn {ξ : Fin n → K} {X : Fin n → ℚ} :
    List.Forall₂ Expr.StandsFor (List.ofFn fun i => num (ξ i)) (List.ofFn X) ↔
      ∀ i, toRat? (ξ i) = some (X i) := by
  rw [forall₂_ofFn_left]
  constructor
  · rintro ⟨g, hg, h⟩ i
    obtain ⟨x, hx, hxq⟩ := h i
    cases hx
    rw [List.ofFn_inj.mp hg]
    exact hxq
  · exact fun h => ⟨X, rfl, fun i => ⟨ξ i, rfl, h i⟩⟩

/-- What stands for a vector is a vector of numbers. -/
theorem exists_numbers_of_forall₂ {x : List (Expr K)} {X : Fin n → ℚ}
    (h : List.Forall₂ Expr.StandsFor x (List.ofFn X)) :
    ∃ ξ : Fin n → K, x = List.ofFn (fun i => num (ξ i)) ∧ ∀ i, toRat? (ξ i) = some (X i) := by
  obtain ⟨f, rfl⟩ := exists_eq_ofFn (h.length_eq.trans List.length_ofFn)
  obtain ⟨g, hg, hf⟩ := forall₂_ofFn_left.mp h
  choose ξ hξ hval using hf
  exact ⟨ξ, congrArg List.ofFn (funext hξ), fun i => List.ofFn_inj.mp hg ▸ hval i⟩

/-- All equations of a numeric system have something if all rows of its matrix have. -/
theorem forall_numericEquations (hα : ∀ i j, toRat? (α i j) = some (A i j))
    (hβ : ∀ i, toRat? (β i) = some (B i)) {p : Row K → Prop} {q : Fin m → Prop}
    (hpq : ∀ i r, r.StandsFor (List.ofFn (A i)) (B i) → (p r ↔ q i)) :
    (∀ r ∈ List.zipWith Row.mk (Grid.numbers α).rows (List.ofFn fun i => num (β i)), p r) ↔
      ∀ i, q i := by
  have hrow : ∀ i, (⟨List.ofFn fun j => num (α i j), num (β i)⟩ : Row K).StandsFor
      (List.ofFn (A i)) (B i) := fun i =>
    ⟨forall₂_standsFor_ofFn.mpr (hα i), β i, rfl, hβ i⟩
  rw [Grid.numbers, Grid.ofFn, zipWith_ofFn, List.forall_mem_ofFn_iff]
  exact forall_congr' fun i => hpq i _ (hrow i)

end numbers

section dependence

variable {n : ℕ} {A : Matrix (Fin n) (Fin n) ℚ}

/-- An entry of a combination of the first columns. -/
theorem sum_smul_col_apply {k : ℕ} (hk : k ≤ n) (g : Fin k → ℚ) (i : Fin n) :
    (∑ j, g j • A.col (Fin.castLE hk j)) i = dot (List.ofFn (A i)) (List.ofFn g) := by
  rw [dot_ofFn hk, Finset.sum_apply]
  exact Finset.sum_congr rfl fun j _ => mul_comm _ _

/-- Columns that depend on each other leave a matrix without an inverse. -/
theorem DependentUpTo.not_isUnit {k : ℕ} (h : DependentUpTo A k) : ¬ IsUnit A := by
  obtain ⟨hk, hdep⟩ := h
  intro hunit
  have hcols : LinearIndependent ℚ A.col := Matrix.linearIndependent_cols_iff_isUnit.mpr hunit
  exact hdep (hcols.comp _ (Fin.castLE_injective hk))

/-- A matrix is invertible if one system with it has only one solution. -/
theorem isUnit_of_unique_solution {B X : Fin n → ℚ} (h : ∀ Y, A.mulVec Y = B ↔ Y = X) :
    IsUnit A := by
  refine Matrix.mulVec_injective_iff_isUnit.mp fun U V hUV => ?_
  -- the difference of `U` and `V` leads from the solution to a solution
  have hX : A.mulVec X = B := (h X).mpr rfl
  have hsum : A.mulVec (X + (U - V)) = B := by
    rw [Matrix.mulVec_add, Matrix.mulVec_sub, hX, show A.mulVec U = A.mulVec V from hUV, sub_self,
      add_zero]
  exact sub_eq_zero.mp (left_eq_add.mp ((h _).mp hsum).symm)

/-- The columns before `k` are independent if only the trivial combination of them vanishes. -/
theorem not_dependentUpTo_of_lt {k j : ℕ} (hkn : k ≤ n) (hj : j < k)
    (h : ∀ cs : List ℚ, cs.length = k → (∀ i, dot (List.ofFn (A i)) cs = 0) → ∀ c ∈ cs, c = 0) :
    ¬ DependentUpTo A j := by
  rintro ⟨hjn, hdep⟩
  have hcols : LinearIndependent ℚ fun i : Fin k => A.col (Fin.castLE hkn i) := by
    refine Fintype.linearIndependent_iff.mpr fun g hg i => ?_
    refine h (List.ofFn g) List.length_ofFn (fun i => ?_) _ (List.mem_ofFn.mpr ⟨i, rfl⟩)
    rw [← sum_smul_col_apply hkn g i, hg, Pi.zero_apply]
  have hfirst := hcols.comp (Fin.castLE hj) (Fin.castLE_injective hj)
  exact hdep hfirst

/-- The columns up to `k` depend on each other if a combination vanishes that is not trivial. -/
theorem dependentUpTo_of_vanishing {k : ℕ} (hk : k + 1 ≤ n) {cs : List ℚ} (hcs : cs.length = k + 1)
    (hne : ∃ c ∈ cs, c ≠ 0) (h : ∀ i, dot (List.ofFn (A i)) cs = 0) : DependentUpTo A k := by
  obtain ⟨g, rfl⟩ := exists_eq_ofFn hcs
  obtain ⟨c, hc, hc0⟩ := hne
  obtain ⟨j, rfl⟩ := (List.mem_ofFn' g c).mp hc
  refine ⟨hk, Fintype.not_linearIndependent_iff.mpr ⟨g, ?_, j, hc0⟩⟩
  ext i
  rw [sum_smul_col_apply hk g i, h i, Pi.zero_apply]

end dependence

/-! ## Numeric systems -/

section square

variable {n : ℕ} {α : Fin n → Fin n → K} {β : Fin n → K} {A : Matrix (Fin n) (Fin n) ℚ}
  {B : Fin n → ℚ}

/-- Elimination runs on the equations of a numeric system. -/
theorem solveLinear_numbers_eq (α : Fin n → Fin n → K) (β : Fin n → K) :
    solveLinear (Grid.numbers α) (List.ofFn fun i => num (β i)) =
      (LinearSystem.triangulate n 0
        (List.zipWith Row.mk (Grid.numbers α).rows (List.ofFn fun i => num (β i)))).map
          LinearSystem.backSubstitute :=
  solveLinear_of_square List.length_ofFn rfl List.length_ofFn

/-- All equations are numeric. -/
theorem isNumeric_numericEquations (hα : ∀ i j, toRat? (α i j) = some (A i j))
    (hβ : ∀ i, toRat? (β i) = some (B i)) :
    ∀ r ∈ List.zipWith Row.mk (Grid.numbers α).rows (List.ofFn fun i => num (β i)),
      r.IsNumeric n :=
  (forall_numericEquations hα hβ fun _ _ hr =>
    iff_true_intro ⟨_, _, hr, List.length_ofFn⟩).mpr fun _ => trivial

/-- A solution that is found consists of numbers, and is the only one. -/
theorem solveLinear_numbers_eq_ok (hα : ∀ i j, toRat? (α i j) = some (A i j))
    (hβ : ∀ i, toRat? (β i) = some (B i)) {x : List (Expr K)}
    (h : solveLinear (Grid.numbers α) (List.ofFn fun i => num (β i)) = .ok x) :
    ∃ (ξ : Fin n → K) (X : Fin n → ℚ), x = List.ofFn (fun i => num (ξ i)) ∧
      (∀ i, toRat? (ξ i) = some (X i)) ∧ ∀ Y, A.mulVec Y = B ↔ Y = X := by
  rw [solveLinear_numbers_eq] at h
  rcases hrun : LinearSystem.triangulate n 0
    (List.zipWith Row.mk (Grid.numbers α).rows (List.ofFn fun i => num (β i))) with e | pivots
  · rw [hrun] at h
    cases h
  rw [hrun] at h
  cases h
  obtain ⟨xs, hxs, hlen, hsolve⟩ := LinearSystem.triangulate_numeric hrun
    (by simp [Grid.numbers, Grid.ofFn]) (isNumeric_numericEquations hα hβ)
  obtain ⟨X, rfl⟩ := exists_eq_ofFn hlen
  obtain ⟨ξ, hξ, hval⟩ := exists_numbers_of_forall₂ hxs
  refine ⟨ξ, X, hξ, hval, fun Y => ?_⟩
  rw [funext_iff, ← List.ofFn_inj, ← hsolve _ List.length_ofFn]
  exact (forall_numericEquations hα hβ fun i r hr => by
    rw [hr.scaled_iff, dot_row, one_mul]).symm

/-- A failure names the first column that depends on those before it. -/
theorem solveLinear_numbers_eq_error (hα : ∀ i j, toRat? (α i j) = some (A i j))
    (hβ : ∀ i, toRat? (β i) = some (B i)) {e : SymbolicError}
    (h : solveLinear (Grid.numbers α) (List.ofFn fun i => num (β i)) = .error e) :
    ∃ k, e = .singular k ∧ IsLeast {k | DependentUpTo A k} k := by
  rw [solveLinear_numbers_eq] at h
  rcases hrun : LinearSystem.triangulate n 0
    (List.zipWith Row.mk (Grid.numbers α).rows (List.ofFn fun i => num (β i))) with e' | pivots
  swap
  · rw [hrun] at h
    cases h
  rw [hrun] at h
  cases h
  obtain ⟨k, hk, rfl, ⟨cs, hcs, hne, hvanish⟩, hindep⟩ :=
    LinearSystem.triangulate_numeric_error hrun (isNumeric_numericEquations hα hβ)
  have hscaled : ∀ cs, (∀ r ∈ List.zipWith Row.mk (Grid.numbers α).rows
      (List.ofFn fun i => num (β i)), r.Scaled 0 cs) ↔ ∀ i, dot (List.ofFn (A i)) cs = 0 :=
    fun cs => forall_numericEquations hα hβ fun i r hr => by rw [hr.scaled_iff, zero_mul]
  refine ⟨k, by rw [Nat.zero_add], dependentUpTo_of_vanishing hk hcs hne ((hscaled cs).mp hvanish),
    fun j hj => ?_⟩
  by_contra hlt
  refine not_dependentUpTo_of_lt hk.le (Nat.lt_of_not_le hlt) (fun cs hcs h => ?_) hj
  exact hindep cs hcs ((hscaled cs).mpr h)

/-- **Numeric systems are decided.**  In exact arithmetic a system of numbers is solved if and only
if its matrix is invertible; the solution then consists of numbers that solve it.  Otherwise the
failure names the first column that depends on those before it. -/
theorem solveLinear_numbers (hα : ∀ i j, toRat? (α i j) = some (A i j))
    (hβ : ∀ i, toRat? (β i) = some (B i)) :
    ((∃ x, solveLinear (Grid.numbers α) (List.ofFn fun i => num (β i)) = .ok x) ↔ IsUnit A) ∧
      (∀ x, solveLinear (Grid.numbers α) (List.ofFn fun i => num (β i)) = .ok x →
        ∃ (ξ : Fin n → K) (X : Fin n → ℚ), x = List.ofFn (fun i => num (ξ i)) ∧
          (∀ i, toRat? (ξ i) = some (X i)) ∧ A.mulVec X = B) ∧
      ∀ e, solveLinear (Grid.numbers α) (List.ofFn fun i => num (β i)) = .error e →
        ∃ k, e = .singular k ∧ IsLeast {k | DependentUpTo A k} k := by
  refine ⟨⟨?_, fun hunit => ?_⟩, fun x hx => ?_, fun e he => solveLinear_numbers_eq_error hα hβ he⟩
  · rintro ⟨x, hx⟩
    obtain ⟨_, _, _, _, hunique⟩ := solveLinear_numbers_eq_ok hα hβ hx
    exact isUnit_of_unique_solution hunique
  · rcases hresult : solveLinear (Grid.numbers α) (List.ofFn fun i => num (β i)) with e | x
    · obtain ⟨k, -, hdep, -⟩ := solveLinear_numbers_eq_error hα hβ hresult
      exact absurd hunit hdep.not_isUnit
    · exact ⟨x, rfl⟩
  · obtain ⟨ξ, X, hξ, hval, hunique⟩ := solveLinear_numbers_eq_ok hα hβ hx
    exact ⟨ξ, X, hξ, hval, (hunique X).mpr rfl⟩

/-- The second column is the first one doubled: `x + 2 * y = 1` and `2 * x + 4 * y = 5`. -/
theorem solveLinear_numbers_doubled :
    let α : Fin 2 → Fin 2 → Exact .standard := ![![⟨some 1⟩, ⟨some 2⟩], ![⟨some 2⟩, ⟨some 4⟩]]
    let β : Fin 2 → Exact .standard := ![⟨some 1⟩, ⟨some 5⟩]
    let A : Matrix (Fin 2) (Fin 2) ℚ := !![1, 2; 2, 4]
    let B : Fin 2 → ℚ := ![1, 5]
    (∀ i j, toRat? (α i j) = some (A i j)) ∧ (∀ i, toRat? (β i) = some (B i)) ∧
      solveLinear (Grid.numbers α) (List.ofFn fun i => num (β i)) = .error (.singular 1) ∧
        ¬ IsUnit A ∧ IsLeast {k | DependentUpTo A k} 1 := by
  intro α β A B
  have hα : ∀ i j, toRat? (α i j) = some (A i j) := by
    intro i j
    fin_cases i <;> fin_cases j <;> rfl
  have hβ : ∀ i, toRat? (β i) = some (B i) := by
    intro i
    fin_cases i <;> rfl
  have hunit : ¬ IsUnit A := by
    rw [Matrix.isUnit_iff_isUnit_det, Matrix.det_fin_two]
    norm_num [A]
  obtain ⟨hsolvable, -, herror⟩ := solveLinear_numbers hα hβ
  rcases hresult : solveLinear (Grid.numbers α) (List.ofFn fun i => num (β i)) with e | x
  · obtain ⟨k, rfl, hleast⟩ := herror e hresult
    obtain ⟨hk, hdep⟩ := hleast.1
    have hfirst : k ≠ 0 := by
      rintro rfl
      have hcol : A.col 0 ≠ 0 := fun hzero => one_ne_zero (congrFun hzero 0)
      exact hdep (linearIndependent_unique_iff (ι := Fin 1).mpr hcol)
    obtain rfl : k = 1 := by omega
    exact ⟨hα, hβ, rfl, hunit, hleast⟩
  · exact absurd (hsolvable.mp ⟨x, hresult⟩) hunit

end square

end FlatModel.Symbolic
