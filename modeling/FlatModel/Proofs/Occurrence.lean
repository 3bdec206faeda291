import FlatModel.Proofs.Elimination
import FlatModel.Proofs.Except
import FlatModel.Proofs.Leaves
import FlatModel.Symbolic.Derivative
import FlatModel.Symbolic.LinearSystem

/-!
# What occurs in the results of symbolic computations

Differentiation, replacement and elimination keep what is hereditary.  So they bring in no leaves but
numbers and those they are told to bring in.

* `Expr.Differentiable` — a hereditary property that the functions of derivatives
  (`Expr.derivedCalls`) keep.
* `Expr.Differentiable.derivative`, `Expr.Differentiable.diff` — derivatives keep it.
* `Expr.AllLeaves.subst` — the leaves after replacement are those of the replacements and of what
  leaves turn into.
* `all_solveLinear` — a solution has as many entries as there are equations, and what the system has.
-/

namespace FlatModel.Symbolic

variable {K : Type} [Scalar K]

namespace Expr

variable {p q : Expr K → Prop} {a b da db : Expr K}

/-! ## Derivatives -/

/-- The functions of one argument that derivatives bring in. -/
def derivedCalls : List String :=
  ["cos", "sin", "tan", "exp", "sqrt", "sign", "cosh", "sinh", "tanh", "log"]

/-- A hereditary property that the functions of derivatives have of their argument. -/
structure Differentiable (q : Expr K → Prop) : Prop extends Hereditary q where
  /-- A function that derivatives bring in keeps it. -/
  derived : ∀ f ∈ derivedCalls, ∀ {a : Expr K}, q a → q (call1 f a)

namespace Differentiable

/-- The known derivative of a function at an argument. -/
theorem outerDerivative? (hq : Differentiable q) {f : String} {outer : Expr K} (ha : q a)
    (h : outerDerivative? f a = some outer) : q outer := by
  have hderived := fun f (hf : f ∈ derivedCalls) {a : Expr K} => hq.derived f hf (a := a)
  simp only [derivedCalls, List.forall_mem_cons] at hderived
  obtain ⟨hcos, hsin, htan, hexp, hsqrt, hsign, hcosh, hsinh, htanh, -⟩ := hderived
  have hall : ∀ rule ∈ outerDerivatives (K := K), q (rule.2 a) := by
    simp [outerDerivatives, square, hq.neg_iff, hq.add_iff, hq.sub_iff, hq.mul_iff, hq.div_iff,
      hq.pow_iff, hq.one, hq.two, ha, hcos, hsin, htan, hexp, hsqrt, hsign, hcosh, hsinh, htanh]
  obtain ⟨rule, hrule, rfl⟩ := Option.map_eq_some_iff.mp h
  obtain ⟨before, after, hmem, _⟩ := List.lookup_eq_some_iff.mp hrule
  exact hall (f, rule) (by rw [hmem]; simp)

/-- The derivative of a power, from base and exponent and their derivatives. -/
theorem powDerivative (hq : Differentiable q) (ha : q a) (hb : q b) (hda : q da) (hdb : q db) :
    q (powDerivative a b da db) := by
  have hlog : q (call1 "log" a) := hq.derived "log" (by decide) ha
  unfold Expr.powDerivative
  split_ifs
  · simp only [hq.mul_iff, hq.pow_iff, hq.sub_iff]
    exact ⟨⟨hb, ha, hb, hq.one⟩, hda⟩
  · simp only [hq.mul_iff, hq.pow_iff, hq.add_iff, hq.div_iff]
    exact ⟨⟨ha, hb⟩, ⟨hdb, hlog⟩, ⟨hb, hda⟩, ha⟩

/-- The derivative of a call, from its arguments and their derivatives. -/
theorem callDerivative (hq : Differentiable q) {f : String} {args dargs : List (Expr K)}
    {d : Expr K} (hargs : ∀ a ∈ args, q a) (hdargs : ∀ a ∈ dargs, q a)
    (h : callDerivative f args dargs = .ok d) : q d := by
  unfold Expr.callDerivative at h
  split at h
  · cases h
    exact hq.zero
  · split at h
    · split at h
      · rename_i houter
        cases h
        exact hq.mul_iff.mpr ⟨hq.outerDerivative? (hargs _ List.mem_cons_self) houter,
          hdargs _ List.mem_cons_self⟩
      · cases h
    · cases h

mutual

/-- **A derivative has what the expression and the derivatives of the atoms have.** -/
theorem derivative (hq : Differentiable q) {leaf : Expr K → Expr K}
    (hsym : ∀ n, q (.sym n) → q (leaf (.sym n))) (hder : ∀ a, q (.der a) → q (leaf (.der a))) :
    ∀ {e d : Expr K}, q e → e.derivative leaf = .ok d → q d
  | .num _, _, _, h => by
      cases h
      exact hq.zero
  | .sym _, _, he, h => by
      cases h
      exact hsym _ he
  | .der _, _, he, h => by
      cases h
      exact hder _ he
  | .neg a, _, he, h => by
      obtain ⟨da, hda, h⟩ := bind_eq_ok.mp h
      cases h
      exact hq.neg_iff.mpr (derivative hq hsym hder (hq.neg_iff.mp he) hda)
  | .add a b, _, he, h => by
      obtain ⟨da, hda, h⟩ := bind_eq_ok.mp h
      obtain ⟨db, hdb, h⟩ := bind_eq_ok.mp h
      cases h
      obtain ⟨ha, hb⟩ := hq.add_iff.mp he
      exact hq.add_iff.mpr ⟨derivative hq hsym hder ha hda, derivative hq hsym hder hb hdb⟩
  | .sub a b, _, he, h => by
      obtain ⟨da, hda, h⟩ := bind_eq_ok.mp h
      obtain ⟨db, hdb, h⟩ := bind_eq_ok.mp h
      cases h
      obtain ⟨ha, hb⟩ := hq.sub_iff.mp he
      exact hq.sub_iff.mpr ⟨derivative hq hsym hder ha hda, derivative hq hsym hder hb hdb⟩
  | .mul a b, _, he, h => by
      obtain ⟨da, hda, h⟩ := bind_eq_ok.mp h
      obtain ⟨db, hdb, h⟩ := bind_eq_ok.mp h
      cases h
      obtain ⟨ha, hb⟩ := hq.mul_iff.mp he
      have hda := derivative hq hsym hder ha hda
      have hdb := derivative hq hsym hder hb hdb
      simp only [hq.add_iff, hq.mul_iff]
      exact ⟨⟨hda, hb⟩, ha, hdb⟩
  | .div a b, _, he, h => by
      obtain ⟨da, hda, h⟩ := bind_eq_ok.mp h
      obtain ⟨db, hdb, h⟩ := bind_eq_ok.mp h
      cases h
      obtain ⟨ha, hb⟩ := hq.div_iff.mp he
      have hda := derivative hq hsym hder ha hda
      have hdb := derivative hq hsym hder hb hdb
      simp only [square, hq.div_iff, hq.sub_iff, hq.mul_iff, hq.pow_iff]
      exact ⟨⟨⟨hda, hb⟩, ha, hdb⟩, hb, hq.two⟩
  | .pow a b, _, he, h => by
      obtain ⟨da, hda, h⟩ := bind_eq_ok.mp h
      obtain ⟨db, hdb, h⟩ := bind_eq_ok.mp h
      cases h
      obtain ⟨ha, hb⟩ := hq.pow_iff.mp he
      have hda := derivative hq hsym hder ha hda
      have hdb := derivative hq hsym hder hb hdb
      exact hq.powDerivative ha hb hda (hq.simplify hdb)
  | .call f args, _, he, h => by
      obtain ⟨dargs, hdargs, h⟩ := bind_eq_ok.mp h
      have hdargs := derivativeAll hq hsym hder (s := args) (hq.args he) hdargs
      exact hq.callDerivative (hq.args he) hdargs h

/-- The derivatives of a list of expressions have what the expressions and the derivatives of the
atoms have. -/
theorem derivativeAll (hq : Differentiable q) {leaf : Expr K → Expr K}
    (hsym : ∀ n, q (.sym n) → q (leaf (.sym n))) (hder : ∀ a, q (.der a) → q (leaf (.der a))) :
    ∀ {s ds : List (Expr K)}, (∀ e ∈ s, q e) → derivativeAll leaf s = .ok ds → ∀ d ∈ ds, q d
  | [], _, _, h => by
      cases h
      exact List.forall_mem_nil _
  | a :: rest, _, he, h => by
      obtain ⟨da, hda, h⟩ := bind_eq_ok.mp h
      obtain ⟨drest, hdrest, h⟩ := bind_eq_ok.mp h
      cases h
      obtain ⟨ha, hrest⟩ := List.forall_mem_cons.mp he
      exact List.forall_mem_cons.mpr
        ⟨hq.simplify (derivative hq hsym hder ha hda), derivativeAll hq hsym hder hrest hdrest⟩

end

/-- **A partial derivative has what the expression has.** -/
theorem diff (hq : Differentiable q) {e var d : Expr K} (he : q e) (h : e.diff var = .ok d) :
    q d := by
  obtain ⟨d', hd', h⟩ := bind_eq_ok.mp h
  cases h
  have hleaf : ∀ l, q (unitLeaf var l) := by
    intro l
    unfold unitLeaf
    split_ifs
    · exact hq.one
    · exact hq.zero
  exact hq.simplify (hq.derivative (fun _ _ => hleaf _) (fun _ _ => hleaf _) he hd')

/-- The entries of a grid of partial derivatives have what the expressions have. -/
theorem jacobian (hq : Differentiable q) {exprs vars : List (Expr K)} {g : Grid (Expr K)}
    (hexprs : ∀ e ∈ exprs, q e) (h : jacobian exprs vars = .ok g) :
    ∀ row ∈ g.rows, ∀ d ∈ row, q d := by
  intro row hrow d hd
  obtain ⟨e, he, hdiffs⟩ := exists_of_mem_mapM (jacobian_eq_ok_iff.mp h).2 hrow
  obtain ⟨v, _, hdiff⟩ := exists_of_mem_mapM hdiffs hd
  exact hq.diff (hexprs e he) hdiff

end Differentiable

/-- What holds of all leaves is kept by differentiation. -/
theorem FoldClosed.differentiable (hq : FoldClosed q) : Differentiable (AllLeaves q) where
  toHereditary := hq.hereditary
  derived _ _ _ ha := ⟨ha, trivial⟩

/-! ## Replacement -/

/-- What replaces an expression is a second part. -/
theorem exists_of_replacement? {pairs : List (Expr K × Expr K)} {e t : Expr K}
    (h : replacement? pairs e = some t) : ∃ pr ∈ pairs, (pr.1 == e) = true ∧ pr.2 = t := by
  obtain ⟨pr, hfind, ht⟩ := Option.map_eq_some_iff.mp h
  have hbeq := List.find?_some hfind
  exact ⟨pr, List.mem_of_find?_eq_some hfind, hbeq, ht⟩

/-- What is not replaced equals no first part. -/
theorem beq_of_replacement?_eq_none {pairs : List (Expr K × Expr K)} {e : Expr K}
    (h : replacement? pairs e = none) : ∀ pr ∈ pairs, (pr.1 == e) = false := by
  rw [replacement?, Option.map_eq_none_iff, List.find?_eq_none] at h
  exact fun pr hpr => Bool.eq_false_iff.mpr (h pr hpr)

section subst

variable {pairs : List (Expr K × Expr K)}

/-- A replacement and what stands where there is none. -/
theorem AllLeaves.getD_replacement? (hpairs : ∀ pr ∈ pairs, pr.2.AllLeaves q) {e t : Expr K}
    (ht : t.AllLeaves q) : ((replacement? pairs e).getD t).AllLeaves q := by
  rcases h : replacement? pairs e with _ | r
  · exact ht
  · obtain ⟨pr, hpr, _, rfl⟩ := exists_of_replacement? h
    exact hpairs pr hpr

mutual

/-- **The leaves after replacement** are those of the replacements and of what leaves turn into. -/
theorem AllLeaves.subst (hpairs : ∀ pr ∈ pairs, pr.2.AllLeaves q)
    (hleaf : ∀ l, p l → (l.subst pairs).AllLeaves q) : ∀ {e : Expr K}, e.AllLeaves p →
      (e.subst pairs).AllLeaves q
  | .num _, he | .sym _, he | .der _, he => hleaf _ he
  | .neg a, he => .getD_replacement? hpairs (AllLeaves.subst hpairs hleaf (e := a) he)
  | .add a b, he | .sub a b, he | .mul a b, he | .div a b, he | .pow a b, he =>
      .getD_replacement? hpairs
        ⟨AllLeaves.subst hpairs hleaf (e := a) he.1, AllLeaves.subst hpairs hleaf (e := b) he.2⟩
  | .call _ args, he =>
      .getD_replacement? hpairs (AllLeavesOf.substAll hpairs hleaf (s := args) he)

/-- The leaves after replacement in a list of expressions. -/
theorem AllLeavesOf.substAll (hpairs : ∀ pr ∈ pairs, pr.2.AllLeaves q)
    (hleaf : ∀ l, p l → (l.subst pairs).AllLeaves q) : ∀ {s : List (Expr K)}, AllLeavesOf p s →
      AllLeavesOf q (substAll pairs s)
  | [], _ => trivial
  | a :: rest, he =>
      ⟨AllLeaves.subst hpairs hleaf (e := a) he.1,
        AllLeavesOf.substAll hpairs hleaf (s := rest) he.2⟩

end

end subst

end Expr

/-! ## Linear systems -/

open FlatModel.Symbolic.Expr

/-- Whether the coefficients and the right side satisfy `q`. -/
structure Row.All (q : Expr K → Prop) (r : Row K) : Prop where
  /-- The coefficients. -/
  coeffs : ∀ e ∈ r.coeffs, q e
  /-- The right side. -/
  rhs : q r.rhs

namespace Row

variable {q : Expr K → Prop} {pivot r : Row K} {factor a b : Expr K}

theorem All.head (hq : Hereditary q) (hr : r.All q) : q r.head := by
  obtain ⟨_ | ⟨a, rest⟩, rhs⟩ := r
  · exact hq.zero
  · exact hr.coeffs a List.mem_cons_self

omit [Scalar K] in
theorem All.tail (hr : r.All q) : r.tail.All q where
  coeffs e he := hr.coeffs e (List.mem_of_mem_tail he)
  rhs := hr.rhs

/-- A reduced entry has what the entry, the pivot's entry and the factor have. -/
theorem all_reduceEntry (hq : Hereditary q) (hf : q factor) (ha : q a) (hb : q b) :
    q (reduceEntry factor a b) :=
  hq.simplify (hq.sub_iff.mpr ⟨ha, hq.mul_iff.mpr ⟨hf, hb⟩⟩)

/-- Elimination of an unknown from an equation. -/
theorem All.eliminate (hq : Hereditary q) (hpivot : pivot.All q) (hr : r.All q) :
    (eliminate pivot r).All q := by
  unfold Row.eliminate
  split_ifs
  · exact hr.tail
  · have hfactor : q (Expr.div r.head pivot.head).simplify :=
      hq.simplify (hq.div_iff.mpr ⟨hr.head hq, hpivot.head hq⟩)
    constructor
    · intro e he
      dsimp only at he
      rw [← List.map_uncurry_zip_eq_zipWith] at he
      obtain ⟨⟨a, b⟩, hab, rfl⟩ := List.mem_map.mp he
      obtain ⟨ha, hb⟩ := List.of_mem_zip hab
      exact all_reduceEntry hq hfactor (hr.tail.coeffs a ha) (hpivot.tail.coeffs b hb)
    · exact all_reduceEntry hq hfactor hr.rhs hpivot.rhs

end Row

namespace LinearSystem

variable {q : Expr K → Prop}

/-- One pivot row for each column, with what the rows have. -/
theorem all_triangulate (hq : Hereditary q) : ∀ {left column : ℕ} {rows pivots : List (Row K)},
    (∀ r ∈ rows, r.All q) → triangulate left column rows = .ok pivots →
      pivots.length = left ∧ ∀ r ∈ pivots, r.All q
  | 0, _, _, _, _, h => by
      cases h
      exact ⟨rfl, fun r hr => nomatch hr⟩
  | left + 1, column, rows, _, hrows, h => by
      obtain ⟨pivot, others, lower, hchoice, hlower, rfl⟩ := triangulate_eq_ok h
      have hperm := (choosePivot_spec hchoice).2
      have hpivot := hrows pivot (hperm.mem_iff.mpr List.mem_cons_self)
      have hothers : ∀ r ∈ others.map (Row.eliminate pivot), r.All q := by
        intro _ hr
        obtain ⟨r, hmem, rfl⟩ := List.mem_map.mp hr
        exact .eliminate hq hpivot (hrows r (hperm.mem_iff.mpr (List.mem_cons_of_mem _ hmem)))
      obtain ⟨hlength, hall⟩ := all_triangulate hq hothers hlower
      exact ⟨congrArg (· + 1) hlength, List.forall_mem_cons.mpr ⟨hpivot, hall⟩⟩

/-- The right side less the solved terms. -/
theorem all_subtractTerms (hq : Hereditary q) : ∀ {terms : List (Expr K × Expr K)} {acc : Expr K},
    (∀ t ∈ terms, q t.1 ∧ q t.2) → q acc →
      q (terms.foldl (fun acc t => Expr.sub acc (.mul t.1 t.2)) acc)
  | [], _, _, hacc => hacc
  | t :: rest, acc, hterms, hacc => by
      obtain ⟨ht, hrest⟩ := List.forall_mem_cons.mp hterms
      rw [List.foldl_cons]
      exact all_subtractTerms hq hrest (hq.sub_iff.mpr ⟨hacc, hq.mul_iff.mpr ht⟩)

/-- The value of one unknown. -/
theorem all_solveRow (hq : Hereditary q) {r : Row K} {solved : List (Expr K)} (hr : r.All q)
    (hsolved : ∀ e ∈ solved, q e) : q (solveRow r solved) := by
  refine hq.simplify (hq.div_iff.mpr ⟨all_subtractTerms hq ?_ hr.rhs, hr.head hq⟩)
  intro ⟨a, b⟩ hab
  obtain ⟨ha, hb⟩ := List.of_mem_zip hab
  exact ⟨hr.tail.coeffs a ha, hsolved b hb⟩

/-- As many unknowns as pivot rows, with what these have. -/
theorem all_backSubstitute (hq : Hereditary q) : ∀ {pivots : List (Row K)},
    (∀ r ∈ pivots, r.All q) →
      (backSubstitute pivots).length = pivots.length ∧ ∀ e ∈ backSubstitute pivots, q e
  | [], _ => ⟨rfl, fun e he => nomatch he⟩
  | r :: rest, hpivots => by
      obtain ⟨hr, hrest⟩ := List.forall_mem_cons.mp hpivots
      obtain ⟨hlength, hall⟩ := all_backSubstitute hq hrest
      exact ⟨congrArg (· + 1) hlength, List.forall_mem_cons.mpr ⟨all_solveRow hq hr hall, hall⟩⟩

end LinearSystem

/-- **A solution has what the system has**, and there is an entry for each equation. -/
theorem all_solveLinear {q : Expr K → Prop} (hq : Hereditary q) {a : Grid (Expr K)}
    {b x : List (Expr K)} (ha : ∀ row ∈ a.rows, ∀ e ∈ row, q e) (hb : ∀ e ∈ b, q e)
    (h : solveLinear a b = .ok x) : x.length = b.length ∧ ∀ e ∈ x, q e := by
  unfold solveLinear at h
  dsimp only at h
  split_ifs at h
  obtain ⟨pivots, hpivots, h⟩ := bind_eq_ok.mp h
  cases h
  have hrows : ∀ r ∈ List.zipWith Row.mk a.rows b, r.All q := by
    intro r hr
    rw [← List.map_uncurry_zip_eq_zipWith] at hr
    obtain ⟨⟨row, rhs⟩, hmem, rfl⟩ := List.mem_map.mp hr
    obtain ⟨hrow, hrhs⟩ := List.of_mem_zip hmem
    exact ⟨ha row hrow, hb rhs hrhs⟩
  obtain ⟨hlength, hall⟩ := LinearSystem.all_triangulate hq hrows hpivots
  obtain ⟨hsolution, hx⟩ := LinearSystem.all_backSubstitute hq hall
  exact ⟨hsolution.trans hlength, hx⟩

end FlatModel.Symbolic
