import FlatModel.Proofs.ExplicitForm
import FlatModel.Proofs.LoweredForm

/-!
# What is left in an explicit form

Reduction looks for unknowns in the partial derivatives of the residuals, where time derivatives are
atoms of their own, and replaces unknowns by zero in the right sides, also under time derivatives.  So
an explicit form may have time derivatives in it that no state has.

* `Model.ExplicitLeaf` — a number, an identifier that is given from outside, or one of some time
  derivatives.
* `Model.Stray` — the time derivatives that get through: those of variables and of inputs, higher ones,
  and those of a zero that took the place of an unknown.
* `Model.leaves_solve`, `Model.leaves_reduce` — the leaves of a solution and of an explicit form, for
  any choice of the time derivatives that the residuals have.
* `Model.reduce_leaves` — the explicit form of a class has no other leaves, and no time derivative if
  the residuals have none but those of states.
-/

namespace FlatModel.Dae

open Symbolic Symbolic.Expr

variable {K : Type}

namespace Model

/-! ## Leaves of an explicit form -/

/-- What the explicit form is expressed in: states, constants, parameters and inputs that are not
solved for. -/
def Given (m : Model K) (n : String) : Prop :=
  (n ∈ m.states ∨ n ∈ m.constants ∨ n ∈ m.parameters ∨ n ∈ m.inputs) ∧ n ∉ m.algebraics

/-- A number, a given identifier or the time derivative of an expression with `stray`. -/
def ExplicitLeaf (m : Model K) (stray : Expr K → Prop) : Expr K → Prop
  | .num _ => True
  | .sym n => m.Given n
  | .der a => stray a
  | _ => False

variable [Scalar K] {m : Model K}

/-- The number zero or an identifier that varies with time. -/
def StrayBase (m : Model K) : Expr K → Prop
  | .num x => x = Scalar.zero
  | .sym n => m.Dynamic n
  | _ => False

/-- What stray time derivatives are taken of: zero or an identifier that varies with time, perhaps
differentiated before, but no state. -/
def Stray (m : Model K) (a : Expr K) : Prop :=
  a.BaseIs m.StrayBase ∧ ∀ x ∈ m.states, a ≠ .sym x

/-- There is nothing to simplify under stray time derivatives. -/
theorem Stray.simplify_eq {a : Expr K} (h : m.Stray a) : a.simplify = a :=
  h.1.simplify_eq fun
    | .num _, _ => rfl
    | .sym _, _ => rfl

theorem foldClosed_explicitLeaf {stray : Expr K → Prop} (h : ∀ a, stray a → a.simplify = a) :
    FoldClosed (m.ExplicitLeaf stray) :=
  foldClosed_of_num (fun _ => trivial) fun a ha => by
    have ha : stray a := ha
    rw [h a ha]
    exact ha

/-! ## Unknowns -/

/-- Every unknown counts as equal to itself. -/
theorem beq_self_of_mem_unknowns {u : Expr K} (hu : u ∈ m.unknowns) : (u == u) = true := by
  rcases List.mem_append.mp hu with h | h
  · obtain ⟨x, _, rfl⟩ := List.mem_map.mp h
    exact beq_self_eq_true x
  · obtain ⟨x, _, rfl⟩ := List.mem_map.mp h
    exact beq_self_eq_true x

/-- What does not count as equal to itself among the unknowns is none of them. -/
theorem not_mem_unknowns {l : Expr K} (h : l ∈ m.unknowns → (l == l) = false) :
    l ∉ m.unknowns := fun hl => by
  rw [beq_self_of_mem_unknowns hl] at h
  exact Bool.noConfusion (h hl)

/-- What has no replacement is no unknown, if all unknowns have one. -/
theorem not_mem_unknowns_of_replacement? {pairs : List (Expr K × Expr K)} {l : Expr K}
    (hpairs : pairs.map Prod.fst = m.unknowns) (h : replacement? pairs l = none) :
    l ∉ m.unknowns :=
  not_mem_unknowns fun hl => by
    rw [← hpairs] at hl
    obtain ⟨pr, hpr, rfl⟩ := List.mem_map.mp hl
    exact beq_of_replacement?_eq_none h pr hpr

omit [Scalar K] in
theorem not_mem_algebraics {n : String} (h : (.sym n : Expr K) ∉ m.unknowns) :
    n ∉ m.algebraics :=
  fun hn => h (List.mem_append_right _ (List.mem_map_of_mem hn))

omit [Scalar K] in
theorem ne_state {a : Expr K} (h : .der a ∉ m.unknowns) : ∀ x ∈ m.states, a ≠ .sym x := by
  rintro x hx rfl
  exact h (List.mem_append_left _ (List.mem_map_of_mem hx))

omit [Scalar K] in
/-- An identifier of the model that is no unknown is given. -/
theorem given_of_declared {n : String} (hn : m.Declared n) (h : (.sym n : Expr K) ∉ m.unknowns) :
    m.Given n := by
  refine ⟨?_, not_mem_algebraics h⟩
  rcases hn with hn | hn | hn
  · exact .inl hn
  · exact absurd hn (not_mem_algebraics h)
  · exact .inr hn

/-! ## Zeros for unknowns -/

/-- The pairs that put zeros in the place of the unknowns. -/
def zeros (m : Model K) : List (Expr K × Expr K) := m.unknowns.map fun u => (u, .zero)

theorem map_fst_zeros : (m.zeros).map Prod.fst = m.unknowns := by
  rw [zeros, List.map_map]
  exact List.map_id _

theorem eq_zero_of_mem_zeros {pr : Expr K × Expr K} (h : pr ∈ m.zeros) : pr.2 = .zero := by
  obtain ⟨_, _, rfl⟩ := List.mem_map.mp h
  rfl

/-- Zeros are explicit. -/
theorem leaves_of_mem_zeros {stray : Expr K → Prop} :
    ∀ pr ∈ m.zeros, pr.2.AllLeaves (m.ExplicitLeaf stray) := fun pr hpr => by
  rw [eq_zero_of_mem_zeros hpr]
  trivial

/-- The replacement of an unknown. -/
theorem replacement?_zeros {e t : Expr K} (h : replacement? m.zeros e = some t) : t = .zero := by
  obtain ⟨pr, hpr, _, rfl⟩ := exists_of_replacement? h
  exact eq_zero_of_mem_zeros hpr

/-- Under time derivatives zeros take the place of unknowns too, and nothing becomes a symbol that was
none. -/
theorem subst_zeros_of_base : ∀ {a : Expr K}, a.BaseIs (SymbolWith m.Dynamic) →
    (a.subst m.zeros).BaseIs m.StrayBase ∧ ∀ x, a.subst m.zeros = .sym x → a = .sym x
  | .sym n, ha => by
      rw [subst]
      rcases h : replacement? m.zeros (.sym n) with _ | t
      · exact ⟨ha, fun x hx => hx⟩
      · rw [replacement?_zeros h]
        exact ⟨rfl, fun x hx => nomatch hx⟩
  | .der a, ha => by
      rw [subst]
      rcases h : replacement? m.zeros (.der a) with _ | t
      · exact ⟨(subst_zeros_of_base (a := a) ha).1, fun x hx => nomatch hx⟩
      · rw [replacement?_zeros h]
        exact ⟨rfl, fun x hx => nomatch hx⟩

/-! ## Solutions -/

/-- Every leaf of the residuals satisfies `p`, and `stray` holds of the time derivatives that remain
of such leaves. -/
structure Remains (m : Model K) (p stray : Expr K → Prop) : Prop where
  /-- The residuals. -/
  residuals : ∀ r ∈ m.residuals, r.AllLeaves p
  /-- The leaves are those of the model. -/
  leaf : ∀ l, p l → m.Leaf l
  /-- Simplification keeps them. -/
  fold : FoldClosed p
  /-- A time derivative that is no unknown remains. -/
  entry : ∀ a, p (.der a) → .der a ∉ m.unknowns → stray a
  /-- It also does when zeros take the place of the unknowns. -/
  zeros : ∀ a, p (.der a) → .der a ∉ m.unknowns → stray (a.subst m.zeros)
  /-- There is nothing to simplify under what remains. -/
  simplify_eq : ∀ a, stray a → a.simplify = a

namespace Remains

variable {p stray : Expr K → Prop}

theorem foldClosed (h : m.Remains p stray) : FoldClosed (m.ExplicitLeaf stray) :=
  foldClosed_explicitLeaf h.simplify_eq

/-- A leaf that is no unknown remains. -/
theorem leaf_of_not_mem (h : m.Remains p stray) : ∀ l, p l → l ∉ m.unknowns →
    m.ExplicitLeaf stray l
  | .num _, _, _ => trivial
  | .sym _, hl, hn => given_of_declared (h.leaf _ hl) hn
  | .der a, hl, hn => h.entry a hl hn
  | .neg _, hl, _ | .add _ _, hl, _ | .sub _ _, hl, _ | .mul _ _, hl, _ | .div _ _, hl, _
  | .pow _ _, hl, _ | .call _ _, hl, _ => (h.leaf _ hl).elim

/-- The leaves of the matrix of a system without unknowns in it. -/
theorem leaves_jacobian (h : m.Remains p stray) {a : Grid (Expr K)}
    (ha : jacobian m.residuals m.unknowns = .ok a) (hlinear : nonlinearRow? m.unknowns a = none) :
    ∀ row ∈ a.rows, ∀ e ∈ row, e.AllLeaves (m.ExplicitLeaf stray) := by
  intro row hrow e he
  have hany := List.findIdx?_eq_none_iff.mp hlinear row hrow
  rw [List.any_eq_false] at hany
  have hfree := allLeaves_of_containsAny (Bool.not_eq_true _ ▸ hany e he)
  have hentry := h.fold.differentiable.jacobian h.residuals ha row hrow e he
  refine (hentry.and hfree).imp fun l hl => ?_
  exact h.leaf_of_not_mem l hl.1 (not_mem_unknowns fun hmem => hl.2 l hmem)

/-- What a leaf turns into when zeros take the place of the unknowns. -/
theorem leaves_subst_zeros (h : m.Remains p stray) (l : Expr K) (hl : p l) :
    (l.subst m.zeros).AllLeaves (m.ExplicitLeaf stray) := by
  cases l with
  | num x => exact .getD_replacement? leaves_of_mem_zeros (e := .num x) (t := .num x) trivial
  | sym n =>
      rw [subst]
      rcases hr : replacement? m.zeros (.sym n) with _ | t
      · exact h.leaf_of_not_mem _ hl (not_mem_unknowns_of_replacement? map_fst_zeros hr)
      · rw [replacement?_zeros hr]
        trivial
  | der a =>
      rw [subst]
      rcases hr : replacement? m.zeros (.der a) with _ | t
      · exact h.zeros a hl (not_mem_unknowns_of_replacement? map_fst_zeros hr)
      · rw [replacement?_zeros hr]
        trivial
  | _ => exact (h.leaf _ hl).elim

/-- The leaves of a right side. -/
theorem leaves_rightSide (h : m.Remains p stray) {r : Expr K} (hr : r ∈ m.residuals) :
    (rightSide m.unknowns r).AllLeaves (m.ExplicitLeaf stray) := by
  have hsubst : (r.subst m.zeros).AllLeaves (m.ExplicitLeaf stray) :=
    AllLeaves.subst leaves_of_mem_zeros h.leaves_subst_zeros (h.residuals r hr)
  exact AllLeaves.simplify h.foldClosed (e := .neg (r.subst m.zeros)) hsubst

/-- **The leaves of a solution.** -/
theorem leaves_solve (h : m.Remains p stray) {solution : List (Expr K)}
    (hsolution : m.solve = .ok solution) :
    solution.length = m.unknowns.length ∧ ∀ t ∈ solution, t.AllLeaves (m.ExplicitLeaf stray) := by
  obtain ⟨hlen, a, ha, hlinear, hsolve⟩ := solve_eq_ok hsolution
  have hright : ∀ e ∈ m.residuals.map (rightSide m.unknowns),
      e.AllLeaves (m.ExplicitLeaf stray) := by
    intro _ he
    obtain ⟨r, hr, rfl⟩ := List.mem_map.mp he
    exact h.leaves_rightSide hr
  obtain ⟨hlength, hleaves⟩ :=
    all_solveLinear h.foldClosed.hereditary (h.leaves_jacobian ha hlinear) hright hsolve
  exact ⟨by rw [hlength, List.length_map, hlen], hleaves⟩

/-- **The leaves of an explicit form.** -/
theorem leaves_reduce (h : m.Remains p stray)
    (houtputs : ∀ n ∈ m.outputs, n ∈ m.states ∨ n ∈ m.algebraics) {e : Explicit K}
    (he : m.reduce = .ok e) :
    ∀ t ∈ e.derivatives ++ e.outputs, t.AllLeaves (m.ExplicitLeaf stray) := by
  obtain ⟨solution, hsolution, hderivatives, hout⟩ := reduce_eq_ok he
  obtain ⟨hlength, hleaves⟩ := h.leaves_solve hsolution
  intro t ht
  rcases List.mem_append.mp ht with ht | ht
  · rw [hderivatives] at ht
    exact hleaves t (List.mem_of_mem_take ht)
  · rw [hout] at ht
    obtain ⟨n, hn, rfl⟩ := List.mem_map.mp ht
    refine AllLeaves.simplify h.foldClosed ?_
    rw [subst]
    rcases hr : replacement? (m.unknowns.zip solution) (.sym n) with _ | t
    · -- an output without a solution of its own is a state
      have hfst : (m.unknowns.zip solution).map Prod.fst = m.unknowns :=
        List.map_fst_zip hlength.ge
      have hn' := not_mem_algebraics (not_mem_unknowns_of_replacement? hfst hr)
      exact ⟨.inl ((houtputs n hn).resolve_right hn'), hn'⟩
    · obtain ⟨pr, hpr, _, rfl⟩ := exists_of_replacement? hr
      exact hleaves _ (List.of_mem_zip hpr).2

end Remains

/-! ## Residuals of classes -/

/-- Residuals of a class may leave stray time derivatives behind. -/
theorem remains_stray (h : ∀ r ∈ m.residuals, r.AllLeaves m.Leaf) : m.Remains m.Leaf m.Stray where
  residuals := h
  leaf _ hl := hl
  fold := foldClosed_normalLeaf
  entry a ha hn := ⟨BaseIs.imp (fun
    | .sym _, hs => hs) ha, ne_state hn⟩
  zeros a ha hn := by
    obtain ⟨hbase, hsym⟩ := subst_zeros_of_base ha
    exact ⟨hbase, fun x hx heq => ne_state hn x hx (hsym x heq)⟩
  simplify_eq _ ha := ha.simplify_eq

/-- Residuals without other time derivatives than those of states leave none behind. -/
theorem remains_none (h : ∀ r ∈ m.residuals, r.AllLeaves m.Leaf)
    (hstate : ∀ r ∈ m.residuals, r.AllLeaves m.StateDerivative) :
    m.Remains (fun l => m.Leaf l ∧ m.StateDerivative l) fun _ => False where
  residuals r hr := (h r hr).and (hstate r hr)
  leaf _ hl := hl.1
  fold := foldClosed_of_num (fun _ => ⟨trivial, trivial⟩) fun a ⟨ha, x, hx, heq⟩ => by
    have hsimplify : a.simplify = a := NormalLeaf.simplify_eq ha
    rw [hsimplify]
    exact ⟨ha, x, hx, heq⟩
  entry _ := fun ⟨_, x, hx, heq⟩ hn => ne_state hn x hx heq
  zeros _ := fun ⟨_, x, hx, heq⟩ hn => ne_state hn x hx heq
  simplify_eq _ := False.elim

/-- **What is left in an explicit form.**  The explicit form of a class whose symbols stand under their
names is built from numbers, from given identifiers and from stray time derivatives; it has no
unknowns.  If the residuals have no time derivatives but those of states, no time derivative is left. -/
theorem reduce_leaves {c : ClassDef} (hkeys : c.IsKeyed) (hm : Model.ofClass c = .ok m)
    {e : Explicit K} (he : m.reduce = .ok e) :
    (∀ t ∈ e.derivatives ++ e.outputs, t.AllLeaves (m.ExplicitLeaf m.Stray)) ∧
      ((∀ r ∈ m.residuals, r.AllLeaves m.StateDerivative) →
        ∀ t ∈ e.derivatives ++ e.outputs, t.AllLeaves (m.ExplicitLeaf fun _ => False)) := by
  have hleaves := leaves_residuals hkeys hm
  have houtputs : ∀ n ∈ m.outputs, n ∈ m.states ∨ n ∈ m.algebraics := fun _ =>
    mem_of_mem_outputs hm
  exact ⟨(remains_stray hleaves).leaves_reduce houtputs he, fun hstate =>
    (remains_none hleaves hstate).leaves_reduce houtputs he⟩

/-- The explicit form of the lag: `(u - x) / T` and `x + (u - x) / T`, with a minus pulled out. -/
theorem reduce_leaves_lag :
    let T : Expr (Exact .standard) := .sym "T"
    let ux : Expr (Exact .standard) := .sub (.sym "u") (.sym "x")
    let e : Explicit (Exact .standard) :=
      ⟨[.div ux T], [.sub (.sym "x") (.mul (.div (.num (Scalar.ofInt (-1))) T) ux)]⟩
    lag.IsKeyed ∧ Model.ofClass lag = .ok lagModel ∧ lagModel.reduce = .ok e ∧
      (∀ r ∈ lagModel.residuals, r.AllLeaves lagModel.StateDerivative) ∧
      ∀ t ∈ e.derivatives ++ e.outputs, t.AllLeaves (lagModel.ExplicitLeaf fun _ => False) := by
  intro T ux e
  have hkeys : lag.IsKeyed := by
    intro p hp
    fin_cases hp <;> rfl
  have hreduce : lagModel.reduce = .ok e := by cbv
  have hstate : ∀ r ∈ lagModel.residuals, r.AllLeaves lagModel.StateDerivative := by
    have hx : lagModel.StateDerivative (.der (.sym "x") : Expr (Exact .standard)) :=
      ⟨"x", List.mem_singleton_self "x", rfl⟩
    intro r hr
    rcases List.mem_cons.mp hr with rfl | hr
    · exact ⟨⟨⟨hx, trivial⟩, trivial⟩, trivial⟩
    · cases List.mem_singleton.mp hr
      exact ⟨trivial, trivial, hx⟩
  exact ⟨hkeys, ofClass_lag, hreduce, hstate, (reduce_leaves hkeys ofClass_lag hreduce).2 hstate⟩

end Model

/-! ### A variable that repeats a state -/

/-- The class of `v = x` and `der(x) = 3 - der(v)`. -/
def echo : ClassDef :=
  let symbols := [Symbol.mk "x" 0 (.ofList [.state]) none none 0,
    Symbol.mk "v" 1 .empty none none 0]
  let c := symbols.foldl ClassDef.addSymbol (.new "Echo")
  let c := c.addEquation (.ref "v") (.ref "x")
  c.addEquation (.der (.ref "x")) (.apply "-" [.ofLiteral (.integer 3), .der (.ref "v")])

/-- The model of the repeated state. -/
def echoModel : Model (Exact .standard) where
  name := "Echo"
  states := ["x"]
  algebraics := ["v"]
  constants := []
  parameters := []
  inputs := []
  outputs := []
  stateDefaults := .empty
  constantDefaults := .empty
  parameterDefaults := .empty
  inputDefaults := .empty
  residuals := [.sub (.sym "v") (.sym "x"),
    .sub (.der (.sym "x")) (.sub (.num (Scalar.ofInt 3)) (.der (.sym "v")))]
  missingDefaults := ["x"]

/-- The repeated state has its model. -/
theorem ofClass_echo : Model.ofClass echo = .ok echoModel := by
  have hx : Identifier.sanitize "x" = "x" := sanitize_lag.1
  have hv : Identifier.sanitize "v" = "v" := by decide +kernel
  have hgroups : echo.groups = {
      states := [Symbol.mk "x" 0 (.ofList [.state]) none none 0]
      inputs := []
      outputs := []
      constants := []
      parameters := []
      algebraics := [Symbol.mk "v" 1 .empty none none 0] } := by
    cbv
  have hscope : Scope.ofClass echo = ⟨["x", "v"], ["x", "v"]⟩ := by
    simp only [Scope.ofClass, hgroups, List.map, hx, hv, List.cons_append, List.nil_append]
    rfl
  have hequations : echo.equations.mapM (lowerEquation (Scope.ofClass echo)) =
      .ok echoModel.residuals := by
    rw [hscope]
    simp only [echo, ClassDef.addEquation, ClassDef.new, ClassDef.addSymbol, List.foldl_cons,
      List.foldl_nil, Expression.apply, Expression.der, Expression.ref, Expression.ofLiteral,
      List.nil_append, List.cons_append, List.mapM_cons, List.mapM_nil, lowerEquation, lower,
      lowerAll, lowerLiteral, Scope.resolve, List.contains_eq_mem, List.mem_cons, String.reduceEq,
      List.not_mem_nil, or_self, or_false, or_true, decide_true, if_true, hx, hv, bind_pure_comp,
      bind_assoc, Except.map_ok, map_bind, map_pure, Functor.map_map]
    rfl
  unfold Model.ofClass
  simp only [hequations, hgroups]
  simp only [lowerDefaults, Symbol.default?, identifiers, Option.or_self, List.map_cons, List.map_nil,
    List.append_assoc, hx, bind_pure_comp, Except.map_ok]
  simp only [hv]
  rfl

/-- The derivative of a variable that is replaced by zero gets into the explicit form, as `der(0)`:
`3 - der(0)`, where the equations have `3 / 2`. -/
theorem exists_stray_in_explicit_form :
    let e : Explicit (Exact .standard) := ⟨[.sub (.num (Scalar.ofInt 3)) (.der zero)], []⟩
    echo.IsKeyed ∧ Model.ofClass echo = .ok echoModel ∧ echoModel.reduce = .ok e ∧
      ¬ ∀ t ∈ e.derivatives ++ e.outputs, t.AllLeaves (echoModel.ExplicitLeaf fun _ => False) := by
  intro e
  refine ⟨?_, ofClass_echo, by cbv, fun h => ?_⟩
  · intro p hp
    fin_cases hp <;> rfl
  · exact (h _ List.mem_cons_self).2

end FlatModel.Dae
