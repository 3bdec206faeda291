import FlatModel.Proofs.ExplicitForm
import FlatModel.Proofs.LoweredForm

/-!
# Affine residuals are accepted

* `Expr.AffineIn` — what is affine in the unknowns by its form: unknowns, what has none in it, and
  sums, multiples and quotients of these.
* `Expr.CoefficientLeaf` — a leaf that simplification leaves alone and that is no unknown.
* `Expr.AffineIn.exists_coefficient` — the derivative of an affine expression by an unknown exists
  and simplifies to an expression without unknowns.  The products of the unknowns with derivatives of
  what has none in it are what might leave one behind; those derivatives simplify to the number zero
  and the products with them.
* `LinearSystem.triangulate_error_singular` — elimination fails only for want of a pivot.
* `Model.reduce_affine` — affine residuals are solved, or no equation determines some unknown.

What is free of unknowns may have any calls in it: a call none of whose arguments varies is constant,
whether or not its function has a derivative.
-/

namespace FlatModel

open Symbolic Symbolic.Expr

variable {K : Type}

namespace Symbolic

namespace Expr

/-! ## Affine expressions -/

/-- Affine in the unknowns by construction. -/
inductive AffineIn [Scalar K] (unknowns : List (Expr K)) : Expr K → Prop
  /-- An unknown. -/
  | unknown {u : Expr K} : u ∈ unknowns → AffineIn unknowns u
  /-- An expression in which no unknown occurs. -/
  | free {a : Expr K} : a.containsAny unknowns = false → AffineIn unknowns a
  /-- The opposite of an affine expression. -/
  | neg {a : Expr K} : AffineIn unknowns a → AffineIn unknowns (.neg a)
  /-- The sum of affine expressions. -/
  | add {a b : Expr K} : AffineIn unknowns a → AffineIn unknowns b → AffineIn unknowns (.add a b)
  /-- The difference of affine expressions. -/
  | sub {a b : Expr K} : AffineIn unknowns a → AffineIn unknowns b → AffineIn unknowns (.sub a b)
  /-- An affine expression with a factor at its left. -/
  | mulLeft {a b : Expr K} : a.containsAny unknowns = false → AffineIn unknowns b →
      AffineIn unknowns (.mul a b)
  /-- An affine expression with a factor at its right. -/
  | mulRight {a b : Expr K} : AffineIn unknowns a → b.containsAny unknowns = false →
      AffineIn unknowns (.mul a b)
  /-- An affine expression over a divisor. -/
  | div {a b : Expr K} : AffineIn unknowns a → b.containsAny unknowns = false →
      AffineIn unknowns (.div a b)

/-! ## Without unknowns -/

section free

variable [Scalar K]

mutual

/-- An atom that is no leaf of an expression does not occur in it. -/
theorem contains_of_allLeaves {α : Atom} : ∀ {e : Expr K},
    e.AllLeaves (fun l => (l == α.expr) = false) → e.contains α.expr = false
  | .num _, h | .sym _, h | .der _, h => h
  | .neg a, h => by
      have hself : (Expr.neg a == α.expr) = false := by obtain ⟨n, _ | k⟩ := α <;> rfl
      rw [contains, hself, contains_of_allLeaves (e := a) h]
      rfl
  | .add a b, h | .sub a b, h | .mul a b, h | .div a b, h | .pow a b, h => by
      rw [contains, contains_of_allLeaves (e := a) h.1, contains_of_allLeaves (e := b) h.2]
      obtain ⟨n, _ | k⟩ := α <;> rfl
  | .call f args, h => by
      have hself : (Expr.call f args == α.expr) = false := by obtain ⟨n, _ | k⟩ := α <;> rfl
      rw [contains, hself, anyContains_of_allLeavesOf (s := args) h]
      rfl

/-- An atom that is no leaf of expressions does not occur in them. -/
theorem anyContains_of_allLeavesOf {α : Atom} : ∀ {s : List (Expr K)},
    AllLeavesOf (fun l => (l == α.expr) = false) s → anyContains s α.expr = false
  | [], _ => rfl
  | a :: rest, h => by
      rw [anyContains, contains_of_allLeaves (e := a) h.1,
        anyContains_of_allLeavesOf (s := rest) h.2]
      rfl

end

/-- A leaf that simplification leaves alone and that is no unknown. -/
def CoefficientLeaf (atoms : List Atom) (l : Expr K) : Prop :=
  l.simplify = l ∧ ∀ u ∈ atoms.map Atom.expr, (l == u) = false

variable {atoms : List Atom}

/-- No number is an unknown. -/
theorem coefficientLeaf_num (x : K) : CoefficientLeaf atoms (.num x) := by
  refine ⟨rfl, fun u hu => ?_⟩
  obtain ⟨⟨n, _ | k⟩, _, rfl⟩ := List.mem_map.mp hu <;> rfl

theorem foldClosed_coefficientLeaf : FoldClosed (CoefficientLeaf atoms : Expr K → Prop) :=
  foldClosed_of_num coefficientLeaf_num fun a ha => by
    rwa [show a.simplify = a from Expr.der.inj ha.1]

/-- No unknown occurs in an expression whose leaves are none. -/
theorem containsAny_of_coefficientLeaves {e : Expr K} (he : e.AllLeaves (CoefficientLeaf atoms)) :
    e.containsAny (atoms.map Atom.expr) = false := by
  rw [containsAny, List.any_eq_false]
  intro u hu
  obtain ⟨α, hα, rfl⟩ := List.mem_map.mp hu
  rw [Bool.not_eq_true]
  exact contains_of_allLeaves (he.imp fun l hl => hl.2 _ hu)

/-- The leaves of an expression in which no unknown occurs. -/
theorem coefficientLeaves_of_containsAny {e : Expr K} (hl : e.AllLeaves fun l => l.simplify = l)
    (he : e.containsAny (atoms.map Atom.expr) = false) : e.AllLeaves (CoefficientLeaf atoms) :=
  hl.and (allLeaves_of_containsAny he)

end free

variable [ExactScalar K] {atoms : List Atom} {u e : Expr K}

/-- A number that stands for zero has no unknown in it. -/
theorem IsZeroNumber.coefficientLeaves (h : e.IsZeroNumber) :
    e.AllLeaves (CoefficientLeaf atoms) := by
  obtain ⟨n, rfl, _⟩ := h
  exact coefficientLeaf_num n

/-- What has no unknowns in it has a derivative that simplifies to zero. -/
theorem derivative_of_containsAny (hsq : SquaresFold K) (hu : u ∈ atoms.map Atom.expr)
    (hf : e.FiniteNumbers) (hd : e.NoZeroDivisor)
    (he : e.containsAny (atoms.map Atom.expr) = false) :
    ∃ d, e.derivative (unitLeaf u) = .ok d ∧ d.simplify.IsZeroNumber :=
  derivative_of_constant hsq hf hd ((allLeaves_of_containsAny he).imp fun _ hl =>
    constantLeaf_of_ne (hl u hu))

/-- **The coefficient of an unknown in an affine expression.**  The derivative of an affine
expression by an unknown simplifies to an expression without unknowns. -/
theorem AffineIn.exists_coefficient (hsq : SquaresFold K)
    (he : AffineIn (atoms.map Atom.expr) e) (hf : e.FiniteNumbers) (hd : e.NoZeroDivisor)
    (hl : e.AllLeaves fun l => l.simplify = l) (hu : u ∈ atoms.map Atom.expr) :
    ∃ d, e.derivative (unitLeaf u) = .ok d ∧ d.simplify.AllLeaves (CoefficientLeaf atoms) := by
  have hp : Hereditary (AllLeaves (CoefficientLeaf atoms) : Expr K → Prop) :=
    foldClosed_coefficientLeaf.hereditary
  induction he with
  | @unknown v hv =>
      obtain ⟨α, _, rfl⟩ := List.mem_map.mp hv
      refine ⟨unitLeaf u α.expr, derivative_expr α, ?_⟩
      unfold unitLeaf
      split_ifs
      · exact coefficientLeaf_num _
      · exact coefficientLeaf_num _
  | free ha =>
      obtain ⟨d, hderivative, hzero⟩ := derivative_of_containsAny hsq hu hf hd ha
      exact ⟨d, hderivative, hzero.coefficientLeaves⟩
  | @neg a _ ih =>
      obtain ⟨da, ha, hda⟩ := ih hf hd hl
      exact ⟨.neg da, by rw [derivative, ha]; rfl, hp.simplifyNeg hda⟩
  | @add a b _ _ iha ihb =>
      obtain ⟨da, ha, hda⟩ := iha hf.1 hd.1 hl.1
      obtain ⟨db, hb, hdb⟩ := ihb hf.2 hd.2 hl.2
      exact ⟨.add da db, by rw [derivative, ha, hb]; rfl, hp.simplifyAdd_simplifySub.1 _ _ hda hdb⟩
  | @sub a b _ _ iha ihb =>
      obtain ⟨da, ha, hda⟩ := iha hf.1 hd.1 hl.1
      obtain ⟨db, hb, hdb⟩ := ihb hf.2 hd.2 hl.2
      exact ⟨.sub da db, by rw [derivative, ha, hb]; rfl, hp.simplifyAdd_simplifySub.2 _ _ hda hdb⟩
  | @mulLeft a b hfree _ ih =>
      obtain ⟨da, ha, hda⟩ := derivative_of_containsAny hsq hu hf.1 hd.1 hfree
      obtain ⟨db, hb, hdb⟩ := ih hf.2 hd.2 hl.2
      -- the unknowns of `b` go with the derivative of the factor
      have hfb : b.FiniteNumbers := hf.2
      have hleft := isZeroNumber_simplifyMul hda.finiteNumbers hfb.simplify (.inl hda)
      have hright := hp.simplifyMul (hp.simplify (coefficientLeaves_of_containsAny hl.1 hfree)) hdb
      exact ⟨.add (.mul da b) (.mul a db), by rw [derivative, ha, hb]; rfl,
        hp.simplifyAdd_simplifySub.1 _ _ hleft.coefficientLeaves hright⟩
  | @mulRight a b _ hfree ih =>
      obtain ⟨da, ha, hda⟩ := ih hf.1 hd.1 hl.1
      obtain ⟨db, hb, hdb⟩ := derivative_of_containsAny hsq hu hf.2 hd.2 hfree
      have hfa : a.FiniteNumbers := hf.1
      have hleft := hp.simplifyMul hda (hp.simplify (coefficientLeaves_of_containsAny hl.2 hfree))
      have hright := isZeroNumber_simplifyMul hfa.simplify hdb.finiteNumbers (.inr hdb)
      exact ⟨.add (.mul da b) (.mul a db), by rw [derivative, ha, hb]; rfl,
        hp.simplifyAdd_simplifySub.1 _ _ hleft hright.coefficientLeaves⟩
  | @div a b _ hfree ih =>
      obtain ⟨da, ha, hda⟩ := ih hf.1 hd.2.1 hl.1
      obtain ⟨db, hb, hdb⟩ := derivative_of_containsAny hsq hu hf.2 hd.2.2 hfree
      have hfa : a.FiniteNumbers := hf.1
      have hdivisor := hp.simplify (coefficientLeaves_of_containsAny hl.2 hfree)
      have hleft := hp.simplifyMul hda hdivisor
      have hright := isZeroNumber_simplifyMul hfa.simplify hdb.finiteNumbers (.inr hdb)
      exact ⟨.div (.sub (.mul da b) (.mul a db)) (square b), by rw [derivative, ha, hb]; rfl,
        hp.simplifyDiv (hp.simplifyAdd_simplifySub.2 _ _ hleft hright.coefficientLeaves)
          (hp.simplifyPow hdivisor hp.two)⟩

end Expr

/-! ## Elimination -/

namespace LinearSystem

variable [Scalar K]

/-- **Elimination fails only for want of a pivot** in one of its columns. -/
theorem triangulate_error_singular {left column : ℕ} {rows : List (Row K)} {e : SymbolicError}
    (h : triangulate left column rows = .error e) : ∃ k < left, e = .singular (column + k) := by
  induction left generalizing column rows with
  | zero => cases h
  | succ left ih =>
      rcases triangulate_eq_error h with ⟨_, rfl⟩ | ⟨pivot, others, _, hlower⟩
      · exact ⟨0, Nat.succ_pos left, rfl⟩
      · obtain ⟨k, hk, rfl⟩ := ih hlower
        exact ⟨k + 1, Nat.succ_lt_succ hk, by rw [Nat.add_assoc, Nat.add_comm 1 k]⟩

end LinearSystem

end Symbolic

namespace Dae

/-- Simplification leaves the leaves of lowered expressions alone. -/
theorem NormalLeaf.simplify_self [Scalar K] {declared dynamic : String → Prop} {l : Expr K}
    (h : NormalLeaf declared dynamic l) : l.simplify = l := by
  cases l with
  | num x => rfl
  | sym n => rfl
  | der a => exact congrArg Expr.der (NormalLeaf.simplify_eq h)
  | _ => exact h.elim

namespace Model

/-! ## Affine models -/

section steps

variable [Scalar K]

/-- The unknown that is blamed stands at the column without a pivot. -/
theorem blameUnknown_singular {unknowns : List (Expr K)} {k : ℕ} (hk : k < unknowns.length) :
    blameUnknown unknowns (.singular k) = .structurallySingular unknowns[k].text := by
  rw [blameUnknown, List.getElem?_eq_getElem hk]
  rfl

/-- Reduction succeeds where the equations are solved, and fails as their solution does. -/
theorem reduce_eq_map (m : Model K) : m.reduce = m.solve.map fun solution =>
    { derivatives := solution.take m.states.length
      outputs := m.outputs.map fun n =>
        ((Expr.sym n).subst (m.unknowns.zip solution)).simplify } := by
  unfold reduce
  cases m.solve <;> rfl

end steps

variable [ExactScalar K] {m : Model K} {a : Grid (Expr K)}

section linear

variable (hsquare : m.residuals.length = m.unknowns.length)
  (ha : jacobian m.residuals m.unknowns = .ok a) (hlinear : nonlinearRow? m.unknowns a = none)

include hsquare ha hlinear

/-- A square system whose matrix has no unknowns in it is left to elimination. -/
theorem solve_eq_mapError : m.solve =
    (solveLinear a (m.residuals.map (rightSide m.unknowns))).mapError (blameUnknown m.unknowns) := by
  unfold solve
  simp only [if_pos hsquare, ha, liftSymbolic, bind, Except.bind, hlinear]
  cases solveLinear a (m.residuals.map (rightSide m.unknowns)) <;> rfl

/-- Such a system is solved, or some unknown is blamed. -/
theorem solve_of_linear : (∃ solution, m.solve = .ok solution) ∨
    ∃ u ∈ m.unknowns, m.solve = .error (.structurallySingular u.text) := by
  rw [solve_eq_mapError hsquare ha hlinear]
  obtain ⟨hcolumns, hrows⟩ := jacobian_eq_ok_iff.mp ha
  have hheight : a.height = m.unknowns.length :=
    ((mapM_eq_ok.mp hrows).length_eq.symm).trans hsquare
  rw [solveLinear_of_square hheight hcolumns ((List.length_map _).trans hsquare)]
  rcases hrun : LinearSystem.triangulate m.unknowns.length 0
    (List.zipWith Row.mk a.rows (m.residuals.map (rightSide m.unknowns))) with e | pivots
  · obtain ⟨k, hk, rfl⟩ := LinearSystem.triangulate_error_singular hrun
    refine .inr ⟨m.unknowns[k], List.getElem_mem hk, ?_⟩
    show Except.error (blameUnknown m.unknowns (.singular (0 + k))) = _
    rw [Nat.zero_add, blameUnknown_singular hk]
  · exact .inl ⟨_, rfl⟩

end linear

/-- The matrix of affine residuals exists and has no unknowns in it. -/
theorem exists_linear_jacobian (hsq : SquaresFold K)
    (hleaf : ∀ r ∈ m.residuals, r.AllLeaves fun l => l.simplify = l)
    (haffine : ∀ r ∈ m.residuals, AffineIn m.unknowns r)
    (hfinite : ∀ r ∈ m.residuals, r.FiniteNumbers)
    (hdivisor : ∀ r ∈ m.residuals, r.NoZeroDivisor) :
    ∃ a, jacobian m.residuals m.unknowns = .ok a ∧ nonlinearRow? m.unknowns a = none := by
  have hentry : ∀ r ∈ m.residuals, ∀ u ∈ m.unknowns, ∃ d, r.diff u = .ok d ∧
      d.containsAny m.unknowns = false := by
    rw [unknowns_eq_map] at haffine ⊢
    intro r hr u hu
    obtain ⟨d, hd, hcoefficient⟩ := (haffine r hr).exists_coefficient hsq (hfinite r hr)
      (hdivisor r hr) (hleaf r hr) hu
    refine ⟨d.simplify, ?_, containsAny_of_coefficientLeaves hcoefficient⟩
    rw [diff, hd]
    rfl
  obtain ⟨a, ha⟩ := exists_jacobian fun r hr u hu => (hentry r hr u hu).imp fun _ h => h.1
  refine ⟨a, ha, ?_⟩
  refine List.findIdx?_eq_none_iff.mpr fun row hrow => List.any_eq_false.mpr fun d hd => ?_
  obtain ⟨r, hr, hdiffs⟩ := exists_of_mem_mapM (jacobian_eq_ok_iff.mp ha).2 hrow
  obtain ⟨u, hu, hdiff⟩ := exists_of_mem_mapM hdiffs hd
  obtain ⟨d', hd', hfree⟩ := hentry r hr u hu
  cases hdiff.symm.trans hd'
  exact Bool.eq_false_iff.mp hfree

/-- **Affine systems are accepted.**  Take the model of a class with as many equations as unknowns,
whose residuals are affine in the unknowns by construction, with finite numbers and no divisor that
simplifies to the number zero.  Reduction gives the explicit form or names an unknown that no
equation determines. -/
theorem reduce_affine (hsq : SquaresFold K) {c : ClassDef} (hm : Model.ofClass c = .ok m)
    (hsquare : m.residuals.length = m.unknowns.length)
    (haffine : ∀ r ∈ m.residuals, AffineIn m.unknowns r)
    (hfinite : ∀ r ∈ m.residuals, r.FiniteNumbers)
    (hdivisor : ∀ r ∈ m.residuals, r.NoZeroDivisor) :
    (∃ e, m.reduce = .ok e) ∨
      ∃ u ∈ m.unknowns, m.reduce = .error (.structurallySingular u.text) := by
  have hleaf : ∀ r ∈ m.residuals, r.AllLeaves fun l => l.simplify = l := by
    obtain ⟨_, _, _, _, _, _, _, _, _, hresiduals, rfl⟩ := ofClass_parts hm
    intro r hr
    obtain ⟨x, _, hx⟩ := exists_of_mem_mapM hresiduals hr
    exact (leaves_lowerEquation hx).imp fun _ => NormalLeaf.simplify_self
  obtain ⟨a, ha, hlinear⟩ := exists_linear_jacobian hsq hleaf haffine hfinite hdivisor
  rw [reduce_eq_map]
  rcases solve_of_linear hsquare ha hlinear with ⟨solution, hsolution⟩ | ⟨u, hu, hsolution⟩
  · rw [hsolution]
    exact .inl ⟨_, rfl⟩
  · rw [hsolution]
    exact .inr ⟨u, hu, rfl⟩

end Model

/-! ### Functions without derivatives -/

/-- The class of `der(x) * lookup(k) = lookup(x) / k`, whose function has no derivative. -/
def tabulated : ClassDef :=
  let symbols := [Symbol.mk "x" 0 (.ofList [.state]) none none 0,
    Symbol.mk "k" 1 (.ofList [.parameter]) none none 0]
  let c := symbols.foldl ClassDef.addSymbol (.new "Table")
  let lookup := fun name => Expression.apply "lookup" [.ref name]
  c.addEquation (.apply "*" [.der (.ref "x"), lookup "k"]) (.apply "/" [lookup "x", .ref "k"])

/-- The model of the tabulated functions. -/
def tabulatedModel : Model (Exact .standard) where
  name := "Table"
  states := ["x"]
  algebraics := []
  constants := []
  parameters := ["k"]
  inputs := []
  outputs := []
  stateDefaults := .empty
  constantDefaults := .empty
  parameterDefaults := .empty
  inputDefaults := .empty
  residuals := [.sub (.mul (.der (.sym "x")) (call1 "lookup" (.sym "k")))
    (.div (call1 "lookup" (.sym "x")) (.sym "k"))]
  missingDefaults := ["x", "k"]

/-- The tabulated functions have their model. -/
theorem ofClass_tabulated : Model.ofClass tabulated = .ok tabulatedModel := by
  have hx : Identifier.sanitize "x" = "x" := sanitize_lag.1
  have hk : Identifier.sanitize "k" = "k" := by decide +kernel
  have hgroups : tabulated.groups = {
      states := [Symbol.mk "x" 0 (.ofList [.state]) none none 0]
      inputs := []
      outputs := []
      constants := []
      parameters := [Symbol.mk "k" 1 (.ofList [.parameter]) none none 0]
      algebraics := [] } := by
    cbv
  have hscope : Scope.ofClass tabulated = ⟨["x", "k"], ["x"]⟩ := by
    simp only [Scope.ofClass, hgroups, List.map, hx, List.append_nil]
    rfl
  have hx' : (Scope.ofClass tabulated).resolve "x" = .ok (.sym "x" : Expr (Exact .standard)) := by
    rw [hscope, Scope.resolve_of_mem (by decide), hx]
  have hk' : (Scope.ofClass tabulated).resolve "k" = .ok (.sym "k" : Expr (Exact .standard)) := by
    rw [hscope, Scope.resolve_of_mem (by decide), hk]
  have hequations : tabulated.equations.mapM (lowerEquation (Scope.ofClass tabulated)) =
      .ok tabulatedModel.residuals := by
    refine mapM_eq_ok.mpr (.cons ?_ .nil)
    simp only [Expression.der, Expression.apply, Expression.ref, lowerEquation, lower, lowerAll,
      hx', hk']
    simp only [hscope]
    rfl
  unfold Model.ofClass
  simp only [hequations, hgroups, lowerDefaults, Symbol.default?, Option.or_self, identifiers,
    List.map_cons, List.map_nil, hx, hk]
  rfl

/-- A function without a derivative may stand anywhere but over an unknown. -/
theorem Model.reduce_affine_tabulated :
    let m := tabulatedModel
    Model.ofClass tabulated = .ok m ∧ m.residuals.length = m.unknowns.length ∧
      (∀ r ∈ m.residuals, AffineIn m.unknowns r ∧ r.FiniteNumbers ∧ r.NoZeroDivisor) ∧
      ((∃ e, m.reduce = .ok e) ∨
        ∃ u ∈ m.unknowns, m.reduce = .error (.structurallySingular u.text)) := by
  intro m
  have hresiduals : ∀ r ∈ m.residuals, AffineIn m.unknowns r ∧ r.FiniteNumbers ∧
      r.NoZeroDivisor := by
    intro r hr
    cases List.mem_singleton.mp hr
    refine ⟨.sub (.mulRight (.unknown List.mem_cons_self) rfl) (.free rfl), ?_, ?_⟩
    · exact ⟨⟨trivial, trivial, trivial⟩, ⟨trivial, trivial⟩, trivial⟩
    · exact ⟨⟨trivial, trivial, trivial⟩, rfl, ⟨trivial, trivial⟩, trivial⟩
  exact ⟨ofClass_tabulated, rfl, hresiduals, Model.reduce_affine
    (squaresFold_of_naturalPowers (R := Reading.standard) Functions.standard_naturalPowers)
    ofClass_tabulated rfl (fun r hr => (hresiduals r hr).1) (fun r hr => (hresiduals r hr).2.1)
    fun r hr => (hresiduals r hr).2.2⟩

end Dae

end FlatModel
