import FlatModel.Proofs.ExplicitLeaves
import FlatModel.Proofs.Linearization

/-!
# Explicit forms have numeric values

An expression has a value if all its leaves have one and all its calls are of functions that are known
at so many arguments.  Neither gets lost on the way from the residuals of a model to the blocks of the
linearized model.

* `Expr.AllCalls p` — every call is of a name and a number of arguments with `p`.
* `Expr.hereditary_allCalls`, `Expr.differentiable_allCalls`, `Expr.AllCalls.subst` — what is called
  after simplification, differentiation and replacement.
* `Scalar.Knows` — a function has values; doubles know what derivatives bring in
  (`Double.knows_derivedCalls`).
* `Expr.exists_eval` — an expression with known leaves and calls has a value.
* `Dae.Model.calls_reduce` — the calls of an explicit form.
* `Dae.Model.evaluates_of_linearize` — the explicit form of a class and its linearization have values
  wherever states, inputs, parameters and constants have values.
-/

namespace FlatModel.Symbolic

/-- A function has a value at every list of so many arguments. -/
def Scalar.Knows (K : Type) [Scalar K] (f : String) (n : Nat) : Prop :=
  ∀ values : List K, values.length = n → ∃ v, Scalar.call? f values = some v

namespace Expr

variable {K : Type}

/-! ## Calls -/

mutual

/-- Whether every call in the expression is of a name and a number of arguments with `p`.  A time
derivative is an atom, in which nothing is called. -/
def AllCalls (p : String → Nat → Prop) : Expr K → Prop
  | .num _ => True
  | .sym _ => True
  | .der _ => True
  | .neg a => a.AllCalls p
  | .add a b => a.AllCalls p ∧ b.AllCalls p
  | .sub a b => a.AllCalls p ∧ b.AllCalls p
  | .mul a b => a.AllCalls p ∧ b.AllCalls p
  | .div a b => a.AllCalls p ∧ b.AllCalls p
  | .pow a b => a.AllCalls p ∧ b.AllCalls p
  | .call f args => p f args.length ∧ AllCallsOf p args

/-- Whether every call in the expressions of a list is of a name and a number of arguments with
`p`. -/
def AllCallsOf (p : String → Nat → Prop) : List (Expr K) → Prop
  | [] => True
  | a :: rest => a.AllCalls p ∧ AllCallsOf p rest

end

variable {p : String → Nat → Prop}

/-- The calls in a list are those in each expression. -/
theorem allCallsOf_iff : ∀ {s : List (Expr K)}, AllCallsOf p s ↔ ∀ e ∈ s, e.AllCalls p
  | [] => iff_of_true trivial (List.forall_mem_nil _)
  | _ :: _ => (and_congr_right fun _ => allCallsOf_iff).trans List.forall_mem_cons.symm

variable [Scalar K]

/-- What holds of all calls is hereditary. -/
theorem hereditary_allCalls : Hereditary (AllCalls (K := K) p) where
  toFoldClosed := foldClosed_of_num (fun _ => trivial) fun _ _ => trivial
  neg_iff := Iff.rfl
  add_iff := Iff.rfl
  sub_iff := Iff.rfl
  mul_iff := Iff.rfl
  div_iff := Iff.rfl
  pow_iff := Iff.rfl
  args h := allCallsOf_iff.mp h.2
  call h hlength hargs := ⟨hlength ▸ h.1, allCallsOf_iff.mpr hargs⟩

/-- Differentiation keeps what holds of all calls and of the functions that it brings in. -/
theorem differentiable_allCalls (h : ∀ f ∈ derivedCalls, p f 1) :
    Differentiable (AllCalls (K := K) p) where
  toHereditary := hereditary_allCalls
  derived f hf _ ha := ⟨h f hf, ha, trivial⟩

section subst

variable {pairs : List (Expr K × Expr K)}

/-- A replacement and what stands where there is none. -/
theorem AllCalls.getD_replacement? (hpairs : ∀ pr ∈ pairs, pr.2.AllCalls p) {e t : Expr K}
    (ht : t.AllCalls p) : ((replacement? pairs e).getD t).AllCalls p := by
  rcases h : replacement? pairs e with _ | r
  · exact ht
  · obtain ⟨pr, hpr, _, rfl⟩ := exists_of_replacement? h
    exact hpairs pr hpr

mutual

/-- **The calls after replacement** are those of the expression and of the replacements. -/
theorem AllCalls.subst (hpairs : ∀ pr ∈ pairs, pr.2.AllCalls p) : ∀ {e : Expr K},
    e.AllCalls p → (e.subst pairs).AllCalls p
  | .num _, _ | .sym _, _ | .der _, _ => .getD_replacement? hpairs trivial
  | .neg a, he => .getD_replacement? hpairs (AllCalls.subst hpairs (e := a) he)
  | .add a b, he | .sub a b, he | .mul a b, he | .div a b, he | .pow a b, he =>
      .getD_replacement? hpairs
        ⟨AllCalls.subst hpairs (e := a) he.1, AllCalls.subst hpairs (e := b) he.2⟩
  | .call f args, he => by
      obtain ⟨hlength, hargs⟩ := AllCallsOf.substAll hpairs (s := args) he.2
      exact .getD_replacement? hpairs ⟨hlength ▸ he.1, hargs⟩

/-- Replacement in a list of expressions. -/
theorem AllCallsOf.substAll (hpairs : ∀ pr ∈ pairs, pr.2.AllCalls p) : ∀ {s : List (Expr K)},
    AllCallsOf p s → (substAll pairs s).length = s.length ∧ AllCallsOf p (substAll pairs s)
  | [], _ => ⟨rfl, trivial⟩
  | a :: rest, he => by
      obtain ⟨hlength, hrest⟩ := AllCallsOf.substAll hpairs (s := rest) he.2
      exact ⟨congrArg (· + 1) hlength, AllCalls.subst hpairs (e := a) he.1, hrest⟩

end

end subst

/-! ## Values -/

/-- A leaf that has a value: a number or a symbol that is bound. -/
def Bound (env : String → Option K) : Expr K → Prop
  | .num _ => True
  | .sym n => ∃ v, env n = some v
  | _ => False

variable {env : String → Option K}

theorem foldClosed_bound : FoldClosed (Bound env) :=
  foldClosed_of_num (fun _ => trivial) fun _ => id

mutual

/-- **An expression has a value** if its leaves have one and its functions are known. -/
theorem exists_eval : ∀ {e : Expr K}, e.AllLeaves (Bound env) → e.AllCalls (Scalar.Knows K) →
    ∃ v, e.eval env = .ok v
  | .num x, _, _ => ⟨x, rfl⟩
  | .sym n, ⟨v, hv⟩, _ => ⟨v, by rw [eval, lookup, hv]⟩
  | .neg a, ha, hc => by
      obtain ⟨x, hx⟩ := exists_eval (e := a) ha hc
      exact ⟨_, bind_eq_ok.mpr ⟨x, hx, rfl⟩⟩
  | .add a b, ha, hc | .sub a b, ha, hc | .mul a b, ha, hc | .div a b, ha, hc
  | .pow a b, ha, hc => by
      obtain ⟨x, hx⟩ := exists_eval (e := a) ha.1 hc.1
      obtain ⟨y, hy⟩ := exists_eval (e := b) ha.2 hc.2
      exact ⟨_, bind_eq_ok.mpr ⟨x, hx, bind_eq_ok.mpr ⟨y, hy, rfl⟩⟩⟩
  | .call f args, ha, hc => by
      obtain ⟨values, hvalues, hlength⟩ := exists_evalAll (s := args) ha hc.2
      obtain ⟨v, hv⟩ := hc.1 values hlength
      exact ⟨v, bind_eq_ok.mpr ⟨values, hvalues, by rw [applyCall, hv]⟩⟩

/-- The expressions of a list have values, one for each. -/
theorem exists_evalAll : ∀ {s : List (Expr K)}, AllLeavesOf (Bound env) s →
    AllCallsOf (Scalar.Knows K) s → ∃ vs, evalAll env s = .ok vs ∧ vs.length = s.length
  | [], _, _ => ⟨[], rfl, rfl⟩
  | a :: rest, ha, hc => by
      obtain ⟨x, hx⟩ := exists_eval (e := a) ha.1 hc.1
      obtain ⟨xs, hxs, hlength⟩ := exists_evalAll (s := rest) ha.2 hc.2
      exact ⟨x :: xs, bind_eq_ok.mpr ⟨x, hx, bind_eq_ok.mpr ⟨xs, hxs, rfl⟩⟩,
        congrArg (· + 1) hlength⟩

end

end Expr

/-- **Doubles know the functions that derivatives bring in.** -/
theorem Double.knows_derivedCalls : ∀ f ∈ Expr.derivedCalls, Scalar.Knows Float f 1 := by
  have hunary : ∀ f ∈ Expr.derivedCalls, (unary.lookup f).isSome := by
    intro f hf
    fin_cases hf <;> rfl
  intro f hf values hlength
  obtain ⟨x, rfl⟩ := List.length_eq_one_iff.mp hlength
  obtain ⟨g, hg⟩ := Option.isSome_iff_exists.mp (hunary f hf)
  exact ⟨g x, Option.map_eq_some_iff.mpr ⟨g, hg, rfl⟩⟩

end FlatModel.Symbolic

namespace FlatModel.Dae

open Symbolic Symbolic.Expr

variable {K : Type} [Scalar K] {m : Model K}

/-! ## Explicit forms -/

namespace Model

section calls

variable {p : String → Nat → Prop} (hp : ∀ f ∈ derivedCalls, p f 1)
  (hresiduals : ∀ r ∈ m.residuals, r.AllCalls p)

include hp hresiduals

/-- The calls of a solution. -/
theorem calls_solve {solution : List (Expr K)} (hsolution : m.solve = .ok solution) :
    ∀ t ∈ solution, t.AllCalls p := by
  obtain ⟨-, a, ha, -, hsolve⟩ := solve_eq_ok hsolution
  have hmatrix := (differentiable_allCalls hp).jacobian hresiduals ha
  have hright : ∀ e ∈ m.residuals.map (rightSide m.unknowns), e.AllCalls p := by
    intro _ he
    obtain ⟨r, hr, rfl⟩ := List.mem_map.mp he
    have hzeros : ∀ pr ∈ m.zeros, pr.2.AllCalls p := fun pr hpr => by
      rw [eq_zero_of_mem_zeros hpr]
      trivial
    exact hereditary_allCalls.simplify (e := .neg (r.subst m.zeros))
      (AllCalls.subst hzeros (hresiduals r hr))
  exact (all_solveLinear hereditary_allCalls hmatrix hright hsolve).2

/-- **The calls of an explicit form** are those of the residuals and of derivatives. -/
theorem calls_reduce {e : Explicit K} (he : m.reduce = .ok e) :
    ∀ t ∈ e.derivatives ++ e.outputs, t.AllCalls p := by
  obtain ⟨solution, hsolution, hderivatives, hout⟩ := reduce_eq_ok he
  have hcalls := calls_solve hp hresiduals hsolution
  intro t ht
  rcases List.mem_append.mp ht with ht | ht
  · rw [hderivatives] at ht
    exact hcalls t (List.mem_of_mem_take ht)
  · rw [hout] at ht
    obtain ⟨n, -, rfl⟩ := List.mem_map.mp ht
    refine hereditary_allCalls.simplify (AllCalls.subst (fun pr hpr => ?_) trivial)
    exact hcalls _ (List.of_mem_zip hpr).2

end calls

end Model

/-- The entries of a block have what the expressions have. -/
theorem IsBlockOf.all {q : Expr K → Prop} (hq : Differentiable q) {es : List (Expr K)}
    {names : List String} {x : Grid (Expr K)} (hx : IsBlockOf es names x) (hes : ∀ e ∈ es, q e) :
    ∀ row ∈ x.rows, ∀ d ∈ row, q d := by
  unfold IsBlockOf at hx
  split at hx
  · subst hx
    exact List.forall_mem_nil _
  · exact hq.jacobian hes hx

/-- A linearization has numbers if all its entries have. -/
theorem Linearization.exists_eval {l : Linearization (Expr K)} {env : String → Option K}
    (h : ∀ x ∈ [l.a, l.b, l.c, l.d], ∀ row ∈ x.rows, ∀ t ∈ row, ∃ v, t.eval env = .ok v) :
    ∃ v, l.eval env = .ok v := by
  simp only [List.forall_mem_cons] at h
  obtain ⟨ha, hb, hc, hd, -⟩ := h
  obtain ⟨a, ha⟩ := Grid.exists_mapM ha
  obtain ⟨b, hb⟩ := Grid.exists_mapM hb
  obtain ⟨c, hc⟩ := Grid.exists_mapM hc
  obtain ⟨d, hd⟩ := Grid.exists_mapM hd
  exact ⟨⟨a, b, c, d⟩, bind_eq_ok.mpr ⟨a, ha, bind_eq_ok.mpr ⟨b, hb, bind_eq_ok.mpr ⟨c, hc,
    bind_eq_ok.mpr ⟨d, hd, rfl⟩⟩⟩⟩⟩

/-- **An explicit form and its linearization have numeric values.**  Where the residuals of a class
have no time derivatives but those of states and call no functions but known ones, what reduction and
linearization make of them can be evaluated at any doubles for states, inputs, parameters and
constants. -/
theorem Model.evaluates_of_linearize {c : ClassDef} {m : Model Float} (hkeys : c.IsKeyed)
    (hm : Model.ofClass c = .ok m) (hstate : ∀ r ∈ m.residuals, r.AllLeaves m.StateDerivative)
    (hcalls : ∀ r ∈ m.residuals, r.AllCalls (Scalar.Knows Float))
    {l : Linearization (Expr Float)} (hl : m.linearize = .ok l) {env : String → Option Float}
    (henv : ∀ n, n ∈ m.states ∨ n ∈ m.inputs ∨ n ∈ m.parameters ∨ n ∈ m.constants →
      ∃ v, env n = some v) :
    ∃ e, m.reduce = .ok e ∧ (∀ t ∈ e.derivatives ++ e.outputs, ∃ v, t.eval env = .ok v) ∧
      ∃ v, l.eval env = .ok v := by
  obtain ⟨e, he, ⟨ha, hc⟩, hb, hd⟩ := Model.linearize_eq_ok hl
  -- the leaves and the calls of the explicit form
  have hbound : ∀ l : Expr Float, m.ExplicitLeaf (fun _ => False) l → Bound env l
    | .num _, _ => trivial
    | .sym n, hn => henv n (by
        obtain ⟨hgiven, -⟩ := hn
        tauto)
  have hremains := remains_none (leaves_residuals hkeys hm) hstate
  have hleaves : ∀ t ∈ e.derivatives ++ e.outputs, t.AllLeaves (Bound env) := fun t ht =>
    (hremains.leaves_reduce (fun _ => mem_of_mem_outputs hm) he t ht).imp hbound
  have hknown := calls_reduce Double.knows_derivedCalls hcalls he
  refine ⟨e, he, fun t ht => Expr.exists_eval (hleaves t ht) (hknown t ht), ?_⟩
  -- and of its derivatives
  have hblock : ∀ {es names x}, IsBlockOf es names x → es ⊆ e.derivatives ++ e.outputs →
      ∀ row ∈ x.rows, ∀ t ∈ row, ∃ v, t.eval env = .ok v := by
    intro es names x hx hes row hrow t ht
    refine Expr.exists_eval ?_ ?_
    · exact hx.all foldClosed_bound.differentiable (fun s hs => hleaves s (hes hs)) row hrow t ht
    · exact hx.all (differentiable_allCalls Double.knows_derivedCalls)
        (fun s hs => hknown s (hes hs)) row hrow t ht
  refine Linearization.exists_eval ?_
  simp only [List.forall_mem_cons]
  exact ⟨hblock ha (List.subset_append_left _ _), hblock hb (List.subset_append_left _ _),
    hblock hc (List.subset_append_right _ _), hblock hd (List.subset_append_right _ _),
    List.forall_mem_nil _⟩

/-! ### A tank with an outlet -/

/-- The class of `der(h) = u - q` and `q = k * sqrt(h)`. -/
def tank : ClassDef :=
  let symbols := [Symbol.mk "h" 0 (.ofList [.state]) none none 0,
    Symbol.mk "k" 1 (.ofList [.parameter]) none none 0,
    Symbol.mk "u" 2 (.ofList [.input]) none none 0,
    Symbol.mk "q" 3 (.ofList [.output]) none none 0]
  let c := symbols.foldl ClassDef.addSymbol (.new "Tank")
  let c := c.addEquation (.der (.ref "h")) (.apply "-" [.ref "u", .ref "q"])
  c.addEquation (.ref "q") (.apply "*" [.ref "k", .apply "sqrt" [.ref "h"]])

/-- The model of the tank. -/
def tankModel : Model Float where
  name := "Tank"
  states := ["h"]
  algebraics := ["q"]
  constants := []
  parameters := ["k"]
  inputs := ["u"]
  outputs := ["q"]
  stateDefaults := .empty
  constantDefaults := .empty
  parameterDefaults := .empty
  inputDefaults := .empty
  residuals := [.sub (.der (.sym "h")) (.sub (.sym "u") (.sym "q")),
    .sub (.sym "q") (.mul (.sym "k") (.call "sqrt" [.sym "h"]))]
  missingDefaults := ["h", "k", "u"]

/-- The tank has its model. -/
theorem ofClass_tank : Model.ofClass tank = .ok tankModel := by
  have hh : Identifier.sanitize "h" = "h" := by decide +kernel
  have hk : Identifier.sanitize "k" = "k" := by decide +kernel
  have hu : Identifier.sanitize "u" = "u" := sanitize_lag.2.2.1
  have hq : Identifier.sanitize "q" = "q" := by decide +kernel
  have hgroups : tank.groups = {
      states := [Symbol.mk "h" 0 (.ofList [.state]) none none 0]
      inputs := [Symbol.mk "u" 2 (.ofList [.input]) none none 0]
      outputs := [Symbol.mk "q" 3 (.ofList [.output]) none none 0]
      constants := []
      parameters := [Symbol.mk "k" 1 (.ofList [.parameter]) none none 0]
      algebraics := [Symbol.mk "q" 3 (.ofList [.output]) none none 0] } := by
    cbv
  have hscope : Scope.ofClass tank = ⟨["h", "k", "u", "q"], ["h", "q", "u", "q"]⟩ := by
    simp only [Scope.ofClass, hgroups, List.map, hh, hu, hq, List.cons_append, List.nil_append]
    rfl
  have hequations : tank.equations.mapM (lowerEquation (Scope.ofClass tank)) =
      .ok tankModel.residuals := by
    rw [hscope]
    simp only [tank, ClassDef.addEquation, ClassDef.new, ClassDef.addSymbol, List.foldl_cons,
      List.foldl_nil, Expression.apply, Expression.der, Expression.ref, List.nil_append,
      List.cons_append, List.mapM_cons, List.mapM_nil, lowerEquation, lower, lowerAll,
      Scope.resolve, List.contains_eq_mem, List.mem_cons, String.reduceEq, List.not_mem_nil,
      or_self, or_false, or_true, decide_true, if_true, hh, hk, hu, hq, bind_pure_comp, bind_assoc,
      Except.map_ok, map_bind, map_pure, Functor.map_map]
    rfl
  unfold Model.ofClass
  simp only [hequations, hgroups]
  simp only [lowerDefaults, Symbol.default?, identifiers, Option.or_self, List.map_cons, List.map_nil,
    List.append_assoc, hh, hk, hu, hq, bind_pure_comp, Except.map_ok]
  rfl

/-- The explicit form of the tank and its linearization have values at all doubles. -/
theorem Model.evaluates_of_linearize_tank :
    let env : String → Option Float := fun n => if n ∈ ["h", "k", "u"] then some 4.0 else none
    Model.ofClass tank = .ok tankModel ∧ ∃ l, tankModel.linearize = .ok l ∧
      ∃ e, tankModel.reduce = .ok e ∧
        (∀ t ∈ e.derivatives ++ e.outputs, ∃ v, t.eval env = .ok v) ∧ ∃ v, l.eval env = .ok v := by
  intro env
  have hkeys : tank.IsKeyed := by
    intro p hp
    fin_cases hp <;> rfl
  have hstate : ∀ r ∈ tankModel.residuals, r.AllLeaves tankModel.StateDerivative := by
    have hh : tankModel.StateDerivative (.der (.sym "h") : Expr Float) :=
      ⟨"h", List.mem_singleton_self "h", rfl⟩
    intro r hr
    fin_cases hr
    · exact ⟨hh, trivial, trivial⟩
    · exact ⟨trivial, trivial, trivial, trivial⟩
  have hsqrt : Scalar.Knows Float "sqrt" 1 := Double.knows_derivedCalls "sqrt" (by decide)
  have hcalls : ∀ r ∈ tankModel.residuals, r.AllCalls (Scalar.Knows Float) := by
    intro r hr
    fin_cases hr
    · exact ⟨trivial, trivial, trivial⟩
    · exact ⟨trivial, trivial, hsqrt, trivial, trivial⟩
  have hlinear : tankModel.linearize.isOk = true := by decide +kernel
  rcases hl : tankModel.linearize with error | l
  · rw [hl] at hlinear
    cases hlinear
  refine ⟨ofClass_tank, l, rfl,
    Model.evaluates_of_linearize hkeys ofClass_tank hstate hcalls hl fun n hn => ?_⟩
  have hmem : n ∈ ["h", "k", "u"] := by
    simp only [tankModel, List.mem_singleton, List.not_mem_nil, or_false] at hn
    simp only [List.mem_cons, List.not_mem_nil, or_false]
    tauto
  exact ⟨4.0, if_pos hmem⟩

end FlatModel.Dae
