import Mathlib
import FlatModel.Dae.Reduction
import FlatModel.Proofs.Affine
import FlatModel.Proofs.Jacobian
import FlatModel.Proofs.ModelOfClass

/-!
# The explicit form solves the equations

* `Model.unknownAtoms` — the unknowns of a model as atoms.
* `Model.chosenPivots` — the pivots that the elimination of a model chooses.
* `Model.value_rightSide` — the right side of a residual is its opposite where all unknowns are
  zero.
* `Model.solve_spec` — what elimination finds are the only values of the unknowns at which all
  residuals vanish.
* `Model.reduce_solves` — derivatives and outputs of the explicit form have their values there.

A residual is linear in the unknowns by its meaning, not by its form: what counts is that no unknown
is left in its simplified partial derivatives.
-/

namespace FlatModel.Dae

open Symbolic Symbolic.Expr

namespace Model

variable {K : Type}

/-! ## Unknowns -/

/-- The unknowns as atoms: the derivatives of the states, then the algebraic variables. -/
def unknownAtoms (m : Model K) : List Atom :=
  m.states.map (fun n => ⟨n, 1⟩) ++ m.algebraics.map fun n => ⟨n, 0⟩

/-- The unknown at each place. -/
def unknown (m : Model K) : Fin m.unknownAtoms.length → Atom := m.unknownAtoms.get

/-- The unknowns are the expressions of the atoms. -/
theorem unknowns_eq_map (m : Model K) : m.unknowns = m.unknownAtoms.map Atom.expr := by
  rw [unknowns, unknownAtoms, List.map_append, List.map_map, List.map_map]
  rfl

/-- The unknowns as a vector. -/
theorem unknowns_eq_ofFn (m : Model K) : m.unknowns = List.ofFn fun i => (m.unknown i).expr := by
  rw [unknowns_eq_map, ← List.ofFn_getElem_eq_map]
  rfl

/-- No unknown stands at two places, if no state and no algebraic variable does. -/
theorem unknown_injective {m : Model K} (hs : m.states.Nodup) (ha : m.algebraics.Nodup) :
    Function.Injective m.unknown := by
  refine List.nodup_iff_injective_get.mp (List.nodup_append.mpr ⟨?_, ?_, ?_⟩)
  · exact hs.map fun _ _ h => congrArg Atom.name h
  · exact ha.map fun _ _ h => congrArg Atom.name h
  · rintro _ hx _ hy rfl
    obtain ⟨x, _, rfl⟩ := List.mem_map.mp hx
    obtain ⟨y, _, hxy⟩ := List.mem_map.mp hy
    exact absurd (congrArg Atom.order hxy) Nat.zero_ne_one

/-- The derivative of every state is an unknown. -/
theorem exists_unknown_of_state {m : Model K} {x : String} (hx : x ∈ m.states) :
    ∃ i, m.unknown i = ⟨x, 1⟩ :=
  List.get_of_mem (List.mem_append_left _ (List.mem_map_of_mem hx))

/-- A leaf that is a number, a symbol or the derivative of a state. -/
def StateDerivative (m : Model K) : Expr K → Prop
  | .der a => ∃ x ∈ m.states, a = .sym x
  | _ => True

/-- Derivatives of states are unknowns. -/
theorem plainLeaf_of_stateDerivative {m : Model K} :
    ∀ {l : Expr K}, m.StateDerivative l → PlainLeaf m.unknown l
  | .der a, ⟨x, hx, ha⟩ => by
      obtain ⟨i, hi⟩ := exists_unknown_of_state hx
      exact ⟨i, by rw [hi, ha]; rfl⟩
  | .num _, _ | .sym _, _ | .neg _, _ | .add _ _, _ | .sub _ _, _ | .mul _ _, _ | .div _ _, _
  | .pow _ _, _ | .call _ _, _ => trivial

/-! ## Success -/

section success

variable [Scalar K] {m : Model K}

/-- Elimination is reached with as many residuals as unknowns, and with partial derivatives without
unknowns. -/
theorem solve_eq_ok {solution : List (Expr K)} (h : m.solve = .ok solution) :
    m.residuals.length = m.unknowns.length ∧ ∃ a, jacobian m.residuals m.unknowns = .ok a ∧
      nonlinearRow? m.unknowns a = none ∧
        solveLinear a (m.residuals.map (rightSide m.unknowns)) = .ok solution := by
  unfold solve at h
  dsimp only at h
  split at h
  · rename_i hlen
    obtain ⟨a, ha, h⟩ := bind_eq_ok.mp h
    refine ⟨hlen, a, liftSymbolic_eq_ok.mp ha, ?_⟩
    split at h
    · cases h
    · rename_i hlinear
      split at h
      · rename_i hsolution
        cases h
        exact ⟨hlinear, hsolution⟩
      · cases h
  · cases h

/-- The explicit form reads derivatives and outputs off a solution. -/
theorem reduce_eq_ok {e : Explicit K} (h : m.reduce = .ok e) :
    ∃ solution, m.solve = .ok solution ∧ e.derivatives = solution.take m.states.length ∧
      e.outputs = m.outputs.map fun n =>
        ((Expr.sym n).subst (m.unknowns.zip solution)).simplify := by
  obtain ⟨solution, hsolution, h⟩ := bind_eq_ok.mp h
  cases h
  exact ⟨solution, hsolution, rfl, rfl⟩

end success

/-! ## The linear system of a model -/

section system

variable [ExactScalar K] {m : Model K}

/-- The pivots that the elimination of a model chooses. -/
def chosenPivots (m : Model K) : List (Expr K) :=
  match jacobian m.residuals m.unknowns with
  | .ok a => LinearSystem.chosenPivots m.residuals.length
      (List.zipWith Row.mk a.rows (m.residuals.map (rightSide m.unknowns)))
  | .error _ => []

/-- The entries of an accepted system are free of unknowns. -/
theorem freeOf_of_nonlinearRow? {g : Grid (Expr K)} (h : nonlinearRow? m.unknowns g = none) :
    ∀ row ∈ g.rows, ∀ e ∈ row, e.FreeOf m.unknown := by
  intro row hrow e he i
  have hany := List.findIdx?_eq_none_iff.mp h row hrow
  rw [List.any_eq_false] at hany
  have hfree := hany e he
  rw [containsAny, Bool.not_eq_true, List.any_eq_false] at hfree
  have hmem : (m.unknown i).expr ∈ m.unknowns := by
    rw [unknowns_eq_ofFn]
    exact (List.mem_ofFn' _ _).mpr ⟨i, rfl⟩
  exact Bool.eq_false_iff.mpr (hfree _ hmem)

/-- Zeros for all unknowns. -/
theorem replaces_zeros (F : Functions ℚ) (ρ : Valuation ℚ) (m : Model K) :
    Replaces F ρ (m.unknowns.map fun u => (u, Expr.zero)) m.unknown 0 := by
  rw [unknowns_eq_ofFn]
  exact replaces_zero F ρ m.unknown

/-- A solution for all unknowns. -/
theorem replaces_solution {F : Functions ℚ} {ρ : Valuation ℚ}
    {t : Fin m.unknownAtoms.length → Expr K} {z : Fin m.unknownAtoms.length → ℚ}
    (ht : ∀ i, (t i).value F ρ = some (z i)) :
    Replaces F ρ (m.unknowns.zip (List.ofFn t)) m.unknown z := by
  have hzip : m.unknowns.zip (List.ofFn t) = List.ofFn fun i => ((m.unknown i).expr, t i) := by
    rw [unknowns_eq_ofFn]
    refine List.ext_getElem (by simp) fun i _ _ => ?_
    simp
  rw [hzip]
  constructor
  · intro p hp
    obtain ⟨i, rfl⟩ := (List.mem_ofFn' _ _).mp hp
    exact ⟨i, rfl, ht i⟩
  · intro i
    exact ⟨_, (List.mem_ofFn' _ _).mpr ⟨i, rfl⟩, rfl⟩

variable {R : Reading K ℚ} {ρ : Valuation ℚ}

/-- The right side of a residual is its opposite where all unknowns are zero. -/
theorem value_rightSide (hu : Function.Injective m.unknown) {r : Expr K}
    (hr : r.AllLeaves (PlainLeaf m.unknown)) {v : ℚ}
    (hv : r.value R.toFunctions (ρ.assign m.unknown 0) = some v) :
    (rightSide m.unknowns r).value R.toFunctions ρ = some (-v) :=
  value_simplify (value_neg ((value_subst (replaces_zeros R.toFunctions ρ m) hu hr).trans hv))

/-- The chosen pivots are those of the system that is solved. -/
theorem chosenPivots_eq {a : Grid (Expr K)} (h : jacobian m.residuals m.unknowns = .ok a) :
    m.chosenPivots = LinearSystem.chosenPivots m.residuals.length
      (List.zipWith Row.mk a.rows (m.residuals.map (rightSide m.unknowns))) := by
  rw [chosenPivots, h]

/-- **Elimination finds the only values of the unknowns at which all residuals vanish.** -/
theorem solve_spec (hpow : R.NaturalPowers) (hu : Function.Injective m.unknown)
    (hleaf : ∀ r ∈ m.residuals, r.AllLeaves (PlainLeaf m.unknown))
    (hpoly : ∀ r ∈ m.residuals, r.PolynomialIn m.unknown)
    (hdef : ∀ r ∈ m.residuals, ∃ y v, r.value R.toFunctions (ρ.assign m.unknown y) = some v)
    (hp : ∀ p ∈ m.chosenPivots, p.value R.toFunctions ρ ≠ some 0) {solution : List (Expr K)}
    (h : m.solve = .ok solution) :
    ∃ z, valueAll R.toFunctions ρ solution = some (List.ofFn z) ∧
      ∀ y, (∀ r ∈ m.residuals, r.value R.toFunctions (ρ.assign m.unknown y) = some 0) ↔ y = z := by
  obtain ⟨hlen, a, hjacobian, hlinear, hsolve⟩ := solve_eq_ok h
  rw [chosenPivots_eq hjacobian] at hp
  have hn : m.residuals.length = m.unknownAtoms.length := by
    rw [hlen, unknowns_eq_map, List.length_map]
  obtain ⟨r, hr⟩ := exists_eq_ofFn hn
  rw [hr] at hleaf hpoly hdef hp hsolve hjacobian ⊢
  rw [unknowns_eq_ofFn] at hjacobian
  obtain ⟨D, hD, rfl⟩ := jacobian_eq_ok hjacobian
  have hmem : ∀ i, r i ∈ List.ofFn r := fun i => (List.mem_ofFn' r _).mpr ⟨i, rfl⟩
  have hfree : ∀ i j, (D i j).FreeOf m.unknown := fun i j =>
    freeOf_of_nonlinearRow? hlinear _ ((List.mem_ofFn' _ _).mpr ⟨i, rfl⟩) _
      ((List.mem_ofFn' _ _).mpr ⟨j, rfl⟩)
  have haffine : ∀ i, ∃ (c : ℚ) (A : Fin m.unknownAtoms.length → ℚ),
      (∀ j, (D i j).value R.toFunctions ρ = some (A j)) ∧
        ∀ y, (r i).value R.toFunctions (ρ.assign m.unknown y) = some (c + ∑ j, A j * y j) := by
    intro i
    obtain ⟨y, v, hv⟩ := hdef _ (hmem i)
    exact value_affine hpow hu (hpoly _ (hmem i)) hv (hD i) (hfree i)
  choose c A hA hvalue using haffine
  have hB : valueAll R.toFunctions ρ ((List.ofFn r).map (rightSide m.unknowns)) =
      some (List.ofFn fun i => -c i) := by
    rw [List.map_ofFn]
    refine valueAll_ofFn fun i => value_rightSide hu (hleaf _ (hmem i)) ?_
    rw [hvalue]
    simp
  rw [List.length_ofFn] at hp
  obtain ⟨z, hz, hunique⟩ := solveLinear_eq_ok hsolve (Grid.hasValues_ofFn hA) hB hp
  refine ⟨z, hz, fun y => ?_⟩
  rw [← hunique y, List.forall_mem_ofFn_iff, funext_iff]
  refine forall_congr' fun i => ?_
  rw [hvalue, Option.some_inj, add_comm, add_eq_zero_iff_eq_neg]
  rfl

/-! ## Values of the explicit form -/

/-- A symbol has its assigned value after replacement and simplification. -/
theorem value_simplify_subst_sym {n : ℕ} {u : Fin n → Atom} {z : Fin n → ℚ}
    {pairs : List (Expr K × Expr K)} (hpairs : Replaces R.toFunctions ρ pairs u z)
    (hu : Function.Injective u) (name : String) :
    ((Expr.sym name).subst pairs).simplify.value R.toFunctions ρ = ρ.assign u z ⟨name, 0⟩ := by
  have hvalue := hpairs.value_atom hu ⟨name, 0⟩
  rw [← hvalue]
  show ((replacement? pairs (.sym name)).getD (.sym name)).simplify.value R.toFunctions ρ =
    ((replacement? pairs (.sym name)).getD (.sym name)).value R.toFunctions ρ
  rcases hr : replacement? pairs (.sym name) with _ | t
  · rfl
  · obtain ⟨p, hfind, rfl⟩ := Option.map_eq_some_iff.mp hr
    obtain ⟨i, _, hi⟩ := hpairs.sound p (List.mem_of_find?_eq_some hfind)
    rw [Option.getD_some, hi]
    exact value_simplify hi

/-- The values of a solution are those that are assigned to the unknowns. -/
theorem map_value_solution (hu : Function.Injective m.unknown) {solution : List (Expr K)}
    {z : Fin m.unknownAtoms.length → ℚ}
    (hz : valueAll R.toFunctions ρ solution = some (List.ofFn z)) :
    solution.map (value R.toFunctions ρ) = m.unknownAtoms.map (ρ.assign m.unknown z) := by
  obtain ⟨t, rfl⟩ := exists_eq_ofFn ((length_of_valueAll hz).symm.trans List.length_ofFn)
  rw [List.map_ofFn, ← List.ofFn_getElem_eq_map]
  refine congrArg List.ofFn (funext fun i => ?_)
  exact (value_of_valueAll_ofFn hz i).trans (Valuation.assign_unknown hu i).symm

end system

/-- **The explicit form is the solution of the equations.**  Take the model of a class whose symbols
have different identifiers, with unknowns only where residuals are polynomial in them.  Wherever the
residuals are defined and no chosen pivot is zero, there is exactly one assignment of the unknowns
at which all residuals vanish, and the explicit form has the values of derivatives and outputs
there. -/
theorem reduce_solves [ExactScalar K] (R : Reading K ℚ) (hpow : R.NaturalPowers) {c : ClassDef}
    {m : Model K} (hm : Model.ofClass c = .ok m) (hid : (identifiers c.symbols.values).Nodup)
    (hder : ∀ r ∈ m.residuals, r.AllLeaves m.StateDerivative)
    (hpoly : ∀ r ∈ m.residuals, r.PolynomialIn m.unknown) {e : Explicit K} (he : m.reduce = .ok e)
    (ρ : Valuation ℚ)
    (hdef : ∀ r ∈ m.residuals, ∃ y v, r.value R.toFunctions (ρ.assign m.unknown y) = some v)
    (hp : ∀ p ∈ m.chosenPivots, p.value R.toFunctions ρ ≠ some 0) :
    ∃ z, (∀ y, (∀ r ∈ m.residuals, r.value R.toFunctions (ρ.assign m.unknown y) = some 0) ↔
        y = z) ∧
      e.derivatives.map (value R.toFunctions ρ) =
        m.states.map (fun x => ρ.assign m.unknown z ⟨x, 1⟩) ∧
      e.outputs.map (value R.toFunctions ρ) =
        m.outputs.map (fun y => ρ.assign m.unknown z ⟨y, 0⟩) := by
  obtain ⟨hstates, halgebraics⟩ := ofClass_eq_ok hm
  have hu : Function.Injective m.unknown := by
    refine unknown_injective ?_ ?_
    · rw [hstates]
      exact SymbolGroups.nodup_states hid
    · rw [halgebraics]
      exact SymbolGroups.nodup_algebraics hid
  obtain ⟨solution, hsolution, hderivatives, houtputs⟩ := reduce_eq_ok he
  obtain ⟨z, hz, hunique⟩ := solve_spec hpow hu
    (fun r hr => (hder r hr).imp fun _ => plainLeaf_of_stateDerivative) hpoly hdef hp hsolution
  refine ⟨z, hunique, ?_, ?_⟩
  · rw [hderivatives, List.map_take, map_value_solution hu hz]
    show ((m.states.map (fun n => Atom.mk n 1) ++ m.algebraics.map fun n => Atom.mk n 0).map
      (ρ.assign m.unknown z)).take m.states.length = _
    rw [List.map_append, List.map_map, List.take_left' (List.length_map _)]
    rfl
  · obtain ⟨t, rfl⟩ := exists_eq_ofFn ((length_of_valueAll hz).symm.trans List.length_ofFn)
    rw [houtputs, List.map_map]
    exact List.map_congr_left fun name _ =>
      value_simplify_subst_sym (replaces_solution (value_of_valueAll_ofFn hz)) hu name

end Model

/-! ### A first-order lag -/

/-- The class of `der(x) * T + x = u` and `y = x + der(x)`. -/
def lag : ClassDef :=
  let symbols := [Symbol.mk "x" 0 (.ofList [.state]) none none 0,
    Symbol.mk "T" 1 (.ofList [.parameter]) none none 0,
    Symbol.mk "u" 2 (.ofList [.input]) none none 0,
    Symbol.mk "y" 3 (.ofList [.output]) none none 0]
  let c := symbols.foldl ClassDef.addSymbol (.new "Lag")
  let dx := Expression.der (.ref "x")
  let c := c.addEquation (.apply "+" [.apply "*" [dx, .ref "T"], .ref "x"]) (.ref "u")
  c.addEquation (.ref "y") (.apply "+" [.ref "x", dx])

/-- The model of the lag. -/
def lagModel : Model (Exact .standard) where
  name := "Lag"
  states := ["x"]
  algebraics := ["y"]
  constants := []
  parameters := ["T"]
  inputs := ["u"]
  outputs := ["y"]
  stateDefaults := .empty
  constantDefaults := .empty
  parameterDefaults := .empty
  inputDefaults := .empty
  residuals := [.sub (.add (.mul (.der (.sym "x")) (.sym "T")) (.sym "x")) (.sym "u"),
    .sub (.sym "y") (.add (.sym "x") (.der (.sym "x")))]
  missingDefaults := ["x", "T", "u"]

/-- No symbol of the lag has a reserved name. -/
theorem sanitize_lag : Identifier.sanitize "x" = "x" ∧ Identifier.sanitize "T" = "T" ∧
    Identifier.sanitize "u" = "u" ∧ Identifier.sanitize "y" = "y" := by
  decide +kernel

/-- The lag has its model. -/
theorem ofClass_lag : Model.ofClass lag = .ok lagModel := by
  obtain ⟨hx, hT, hu, hy⟩ := sanitize_lag
  have hgroups : lag.groups = {
      states := [Symbol.mk "x" 0 (.ofList [.state]) none none 0]
      inputs := [Symbol.mk "u" 2 (.ofList [.input]) none none 0]
      outputs := [Symbol.mk "y" 3 (.ofList [.output]) none none 0]
      constants := []
      parameters := [Symbol.mk "T" 1 (.ofList [.parameter]) none none 0]
      algebraics := [Symbol.mk "y" 3 (.ofList [.output]) none none 0] } := by
    cbv
  have hscope : Scope.ofClass lag = ⟨["x", "T", "u", "y"], ["x", "y", "u", "y"]⟩ := by
    simp only [Scope.ofClass, hgroups, List.map, hx, hu, hy, List.cons_append, List.nil_append]
    rfl
  have hequations : lag.equations.mapM (lowerEquation (Scope.ofClass lag)) =
      .ok lagModel.residuals := by
    rw [hscope]
    simp only [lag, ClassDef.addEquation, ClassDef.new, ClassDef.addSymbol, List.foldl_cons,
      List.foldl_nil, Expression.apply, Expression.der, Expression.ref, List.nil_append,
      List.cons_append, List.mapM_cons, List.mapM_nil, lowerEquation, lower, lowerAll,
      Scope.resolve, List.contains_eq_mem, List.mem_cons, String.reduceEq, List.not_mem_nil,
      or_self, or_false, or_true, decide_true, if_true, hx, hT, hu, hy, bind_pure_comp, bind_assoc,
      Except.map_ok, map_bind, map_pure, Functor.map_map]
    rfl
  unfold Model.ofClass
  simp only [hequations, hgroups]
  simp only [lowerDefaults, Symbol.default?, identifiers, Option.or_self, List.map_cons, List.map_nil,
    List.append_assoc, hx, hT, hu, hy, bind_pure_comp, Except.map_ok]
  rfl

/-- The explicit form of the lag where `T` is `2`, `x` is `1` and `u` is `5`. -/
theorem Model.reduce_solves_lag :
    let T : Expr (Exact .standard) := .sym "T"
    let ux : Expr (Exact .standard) := .sub (.sym "u") (.sym "x")
    let e : Explicit (Exact .standard) :=
      ⟨[.div ux T], [.sub (.sym "x") (.mul (.div (.num (Scalar.ofInt (-1))) T) ux)]⟩
    let ρ : Valuation ℚ := fun α => if α = ⟨"T", 0⟩ then some 2 else
      if α = ⟨"x", 0⟩ then some 1 else if α = ⟨"u", 0⟩ then some 5 else none
    Model.ofClass lag = .ok lagModel ∧ (identifiers lag.symbols.values).Nodup ∧
      lagModel.reduce = .ok e ∧ lagModel.chosenPivots = [T, .one] ∧
      ∃ z, (∀ y, (∀ r ∈ lagModel.residuals, r.value Reading.standard.toFunctions
          (ρ.assign lagModel.unknown y) = some 0) ↔ y = z) ∧
        e.derivatives.map (value Reading.standard.toFunctions ρ) =
          ["x"].map (fun x => ρ.assign lagModel.unknown z ⟨x, 1⟩) ∧
        e.outputs.map (value Reading.standard.toFunctions ρ) =
          ["y"].map (fun y => ρ.assign lagModel.unknown z ⟨y, 0⟩) := by
  intro T ux e ρ
  have hid : (identifiers lag.symbols.values).Nodup := by decide +kernel
  have hreduce : lagModel.reduce = .ok e := by cbv
  have hpivots : lagModel.chosenPivots = [T, .one] := by cbv
  have hu : Function.Injective lagModel.unknown :=
    unknown_injective (List.nodup_singleton "x") (List.nodup_singleton "y")
  have hdx : ρ.assign lagModel.unknown 0 ⟨"x", 1⟩ = some 0 :=
    Valuation.assign_unknown hu ⟨0, by decide⟩
  have hy : ρ.assign lagModel.unknown 0 ⟨"y", 0⟩ = some 0 :=
    Valuation.assign_unknown hu ⟨1, by decide⟩
  have hT : ρ.assign lagModel.unknown 0 ⟨"T", 0⟩ = some 2 := Valuation.assign_of_ne (by decide)
  have hx : ρ.assign lagModel.unknown 0 ⟨"x", 0⟩ = some 1 := Valuation.assign_of_ne (by decide)
  have hin : ρ.assign lagModel.unknown 0 ⟨"u", 0⟩ = some 5 := Valuation.assign_of_ne (by decide)
  refine ⟨ofClass_lag, hid, hreduce, hpivots, Model.reduce_solves Reading.standard
    Functions.standard_naturalPowers ofClass_lag hid ?_ ?_ hreduce ρ ?_ ?_⟩
  · have hstate : lagModel.StateDerivative (.der (.sym "x") : Expr (Exact .standard)) :=
      ⟨"x", List.mem_singleton_self "x", rfl⟩
    intro r hr
    rcases List.mem_cons.mp hr with rfl | hr
    · exact ⟨⟨⟨hstate, trivial⟩, trivial⟩, trivial⟩
    · cases List.mem_singleton.mp hr
      exact ⟨trivial, trivial, hstate⟩
  · intro r hr
    rcases List.mem_cons.mp hr with rfl | hr
    · exact ⟨⟨⟨trivial, trivial⟩, trivial⟩, trivial⟩
    · cases List.mem_singleton.mp hr
      exact ⟨trivial, trivial, trivial⟩
  · intro r hr
    rcases List.mem_cons.mp hr with rfl | hr
    · exact ⟨0, _, value_sub (value_add (value_mul hdx hT) hx) hin⟩
    · cases List.mem_singleton.mp hr
      exact ⟨0, _, value_sub hy (value_add hx hdx)⟩
  · rw [hpivots]
    intro p hp
    rcases List.mem_cons.mp hp with rfl | hp
    · simp [T, ρ, value]
    · cases List.mem_singleton.mp hp
      simp

end FlatModel.Dae
