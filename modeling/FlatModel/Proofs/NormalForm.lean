import FlatModel.Proofs.ExplicitForm
import FlatModel.Proofs.LoweredForm
import FlatModel.Proofs.ModelAgreement

/-!
# What the model of a class is written in

* `Expr.parts` — an expression and all expressions in it, also those under time derivatives.
* `Dae.NormalPart` — a declared symbol, a time derivative of some order of a dynamic one, or a node
  that is neither symbol nor time derivative.
* `Dae.normalParts` — the parts of an expression whose leaves are normal.
* `Dae.no_der_of_constant` — a time derivative of what refers to nothing dynamic leaves none behind.
* `Model.ofClass_normalForm` — residuals and defaults of a class, its outputs, and the time
  derivatives that vanish.

What varies with time is told by identifier, not by symbol.  A parameter that has its identifier in
common with a state is differentiated like the state (`exists_der_of_parameter`).
-/

namespace FlatModel

open Symbolic Symbolic.Expr

variable {K : Type}

namespace Symbolic.Expr

mutual

/-- The expression and all expressions in it. -/
def parts : Expr K → List (Expr K)
  | .num x => [.num x]
  | .sym n => [.sym n]
  | .der a => .der a :: a.parts
  | .neg a => .neg a :: a.parts
  | .add a b => .add a b :: (a.parts ++ b.parts)
  | .sub a b => .sub a b :: (a.parts ++ b.parts)
  | .mul a b => .mul a b :: (a.parts ++ b.parts)
  | .div a b => .div a b :: (a.parts ++ b.parts)
  | .pow a b => .pow a b :: (a.parts ++ b.parts)
  | .call f args => .call f args :: partsAll args

/-- All expressions in the expressions of a list. -/
def partsAll : List (Expr K) → List (Expr K)
  | [] => []
  | a :: rest => a.parts ++ partsAll rest

end

end Symbolic.Expr

namespace Dae

/-! ## Parts of lowered expressions -/

section parts

variable {declared dynamic : String → Prop}

/-- A declared symbol, the time derivative of an iterated derivative of a dynamic symbol, or a node
of another kind. -/
def NormalPart (declared dynamic : String → Prop) : Expr K → Prop
  | .sym n => declared n
  | .der a => ∃ n k, a = iteratedDer n k ∧ dynamic n
  | _ => True

/-- What is differentiated over and over is a symbol in the end. -/
theorem exists_iteratedDer : ∀ {a : Expr K}, a.BaseIs (SymbolWith dynamic) →
    ∃ n k, a = iteratedDer n k ∧ dynamic n
  | .sym n, h => ⟨n, 0, rfl, h⟩
  | .der a, h => by
      obtain ⟨n, k, rfl, hn⟩ := exists_iteratedDer (a := a) h
      exact ⟨n, k + 1, rfl, hn⟩

/-- The parts of an iterated derivative. -/
theorem normalPart_of_iteratedDer (hdeclared : ∀ n, dynamic n → declared n) {n : String}
    (hn : dynamic n) {k : ℕ} {t : Expr K} (ht : t ∈ (iteratedDer n k).parts) :
    NormalPart declared dynamic t := by
  induction k with
  | zero =>
      cases List.mem_singleton.mp ht
      exact hdeclared n hn
  | succ k ih =>
      rcases List.mem_cons.mp ht with rfl | ht
      · exact ⟨n, k, rfl, hn⟩
      · exact ih ht

mutual

/-- **The parts of an expression with normal leaves.** -/
theorem normalParts (hdeclared : ∀ n, dynamic n → declared n) : ∀ {e : Expr K},
    e.AllLeaves (NormalLeaf declared dynamic) → ∀ t ∈ e.parts, NormalPart declared dynamic t
  | .num _, _, t, ht => by
      cases List.mem_singleton.mp ht
      trivial
  | .sym _, he, t, ht => by
      cases List.mem_singleton.mp ht
      exact he
  | .der _, he, t, ht => by
      obtain ⟨n, k, rfl, hn⟩ := exists_iteratedDer he
      exact normalPart_of_iteratedDer hdeclared hn (k := k + 1) ht
  | .neg a, he, t, ht => by
      rcases List.mem_cons.mp ht with rfl | ht
      · trivial
      · exact normalParts hdeclared (e := a) he t ht
  | .add a b, he, t, ht | .sub a b, he, t, ht | .mul a b, he, t, ht | .div a b, he, t, ht
  | .pow a b, he, t, ht => by
      rcases List.mem_cons.mp ht with rfl | ht
      · trivial
      · rcases List.mem_append.mp ht with ht | ht
        · exact normalParts hdeclared (e := a) he.1 t ht
        · exact normalParts hdeclared (e := b) he.2 t ht
  | .call _ args, he, t, ht => by
      rcases List.mem_cons.mp ht with rfl | ht
      · trivial
      · exact normalPartsAll hdeclared (s := args) he t ht

/-- The parts of expressions with normal leaves. -/
theorem normalPartsAll (hdeclared : ∀ n, dynamic n → declared n) : ∀ {s : List (Expr K)},
    AllLeavesOf (NormalLeaf declared dynamic) s →
      ∀ t ∈ partsAll s, NormalPart declared dynamic t
  | [], _, t, ht => by cases ht
  | a :: rest, he, t, ht => by
      rcases List.mem_append.mp ht with ht | ht
      · exact normalParts hdeclared (e := a) he.1 t ht
      · exact normalPartsAll hdeclared (s := rest) he.2 t ht

end

end parts

/-! ## Time derivatives of constants -/

section constant

variable [Scalar K] {s : Scope}

/-- Symbols that do not vary with time, and no time derivatives. -/
def ConstantSymbols (s : Scope) : Expr K → Prop :=
  NormalLeaf (fun n => s.isDynamic n = false) fun _ => False

theorem keeps_constantSymbols : s.Keeps (ConstantSymbols s (K := K)) where
  num _ := trivial
  der _ := foldClosed_normalLeaf.der
  timeLeaf l hl := by
    cases l with
    | sym n =>
        have hn : s.isDynamic n = false := hl
        rw [timeLeaf, hn]
        trivial
    | der a => exact hl
    | num x => trivial
    | _ => exact hl.elim

/-- **The time derivative of what refers to nothing dynamic** has no time derivative in it. -/
theorem no_der_of_constant {x : Expression} {id : ℕ} {e : Expr K}
    (hconstant : ∀ name ∈ x.references, s.isDynamic (Identifier.sanitize name) = false)
    (h : lower s (.operation id "der" [x]) = .ok e) : ∀ a, Expr.der a ∉ e.parts := by
  have hreferences : ∀ name ∈ (Expression.operation id "der" [x]).references, name ∈ s.names →
      ConstantSymbols s (Expr.sym (Identifier.sanitize name) : Expr K) := by
    intro name hname _
    rcases List.mem_append.mp hname with hname | hname
    · exact hconstant name hname
    · cases hname
  intro a ha
  obtain ⟨_, _, _, hfalse⟩ := normalParts (fun _ => False.elim)
    (leaves_lower keeps_constantSymbols hreferences h) _ ha
  exact hfalse

end constant

/-! ## Residuals and defaults -/

namespace Model

/-- The residuals and all defaults. -/
def expressions (m : Model K) : List (Expr K) :=
  m.residuals ++ m.stateDefaults.values ++ m.constantDefaults.values ++
    m.parameterDefaults.values ++ m.inputDefaults.values

variable [Scalar K] {c : ClassDef} {m : Model K}

/-- A default is a lowered expression. -/
theorem exists_lower_of_mem_defaults {s : Scope} {symbols : List Symbol}
    {found : List (String × Expr K) × List String} (h : lowerDefaults s symbols = .ok found)
    {e : Expr K} (he : e ∈ (OrderedMap.ofList found.1).values) : ∃ x, lower s x = .ok e := by
  obtain ⟨key, hkey⟩ := OrderedMap.mem_values_iff.mp he
  obtain ⟨x, _, hx⟩ := ((merges_lowerDefaults h).find? key e).mp hkey
  exact ⟨x, hx⟩

/-- **The leaves of the residuals and the defaults of a class.** -/
theorem leaves_expressions (hkeys : c.IsKeyed) (hm : Model.ofClass c = .ok m) :
    ∀ e ∈ m.expressions, e.AllLeaves m.Leaf := by
  have hresiduals := leaves_residuals hkeys hm
  have hlower : ∀ {e : Expr K}, (∃ x, lower (.ofClass c) x = .ok e) → e.AllLeaves m.Leaf :=
    fun ⟨_, hx⟩ => (scopeLeaves_lower hx).imp (leaf_of_scopeLeaf hkeys hm)
  obtain ⟨_, _, _, _, _, hx, hc, hp, hu, _, rfl⟩ := ofClass_parts hm
  intro e he
  simp only [expressions, List.mem_append] at he
  rcases he with (((he | he) | he) | he) | he
  · exact hresiduals e he
  · exact hlower (exists_lower_of_mem_defaults hx he)
  · exact hlower (exists_lower_of_mem_defaults hc he)
  · exact hlower (exists_lower_of_mem_defaults hp he)
  · exact hlower (exists_lower_of_mem_defaults hu he)

omit [Scalar K] in
/-- What varies with time is declared. -/
theorem declared_of_dynamic {n : String} (hn : m.Dynamic n) : m.Declared n := by
  rcases hn with hn | hn | hn
  · exact .inl hn
  · exact .inr (.inl hn)
  · exact .inr (.inr (.inr (.inr hn)))

/-- **The model of a class is in normal form.**  All symbols in its residuals and defaults are
identifiers of its vectors, and what is differentiated by time is an iterated derivative of a state,
a variable or an input.  Outputs are states or variables.  The time derivative of an expression that
refers to no identifier of those vectors has no time derivative in it. -/
theorem ofClass_normalForm (hkeys : c.IsKeyed) (hm : Model.ofClass c = .ok m) :
    (∀ e ∈ m.expressions, (∀ n, Expr.sym n ∈ e.parts → m.Declared n) ∧
      ∀ a, Expr.der a ∈ e.parts → ∃ n k, a = iteratedDer n k ∧ m.Dynamic n) ∧
    (∀ n ∈ m.outputs, n ∈ m.states ∨ n ∈ m.algebraics) ∧
    ∀ (x : Expression) (id : ℕ) (e : Expr K),
      (∀ name ∈ x.references, ¬ m.Dynamic (Identifier.sanitize name)) →
        lower (.ofClass c) (.operation id "der" [x]) = .ok e → ∀ a, Expr.der a ∉ e.parts := by
  refine ⟨fun e he => ?_, fun n hn => mem_of_mem_outputs hm hn, fun x id e hx h => ?_⟩
  · have hparts := normalParts (fun _ => declared_of_dynamic) (leaves_expressions hkeys hm e he)
    exact ⟨fun n hn => hparts _ hn, fun a ha => hparts _ ha⟩
  · exact no_der_of_constant (fun name hname => Bool.eq_false_iff.mpr fun hdynamic =>
      hx name hname (dynamic_of_isDynamic hm hdynamic)) h

/-- The lag is written in `x`, `T`, `u`, `y` and the derivative of `x`. -/
theorem ofClass_normalForm_lag :
    lag.IsKeyed ∧ Model.ofClass lag = .ok lagModel ∧
      (∀ e ∈ lagModel.expressions, (∀ n, Expr.sym n ∈ e.parts → lagModel.Declared n) ∧
        ∀ a, Expr.der a ∈ e.parts → ∃ n k, a = iteratedDer n k ∧ lagModel.Dynamic n) ∧
      (∀ n ∈ lagModel.outputs, n ∈ lagModel.states ∨ n ∈ lagModel.algebraics) ∧
      ∀ (id : ℕ) (e : Expr (Exact .standard)),
        lower (.ofClass lag) (.operation id "der" [.ref "T"]) = .ok e →
          ∀ a, Expr.der a ∉ e.parts := by
  have hkeys : lag.IsKeyed := by
    intro p hp
    fin_cases hp <;> rfl
  obtain ⟨hexpressions, houtputs, hconstant⟩ := ofClass_normalForm hkeys ofClass_lag
  refine ⟨hkeys, ofClass_lag, hexpressions, houtputs, fun id e => hconstant _ id e ?_⟩
  intro name hname
  cases List.mem_singleton.mp hname
  rw [sanitize_lag.2.1]
  show ¬ ("T" ∈ ["x"] ∨ "T" ∈ ["y"] ∨ "T" ∈ ["u"])
  decide

end Model

/-! ### A parameter in the shadow of a state -/

/-- The class of `der(a__b) = 1` with a state `a.b` and a parameter `a__b`. -/
def shadowed : ClassDef :=
  let symbols := [Symbol.mk "a.b" 0 (.ofList [.state]) none none 0,
    Symbol.mk "a__b" 1 (.ofList [.parameter]) none none 0]
  let c := symbols.foldl ClassDef.addSymbol (.new "Shadow")
  c.addEquation (.der (.ref "a__b")) (.ofLiteral (.integer 1))

/-- The model of the shadowed parameter. -/
def shadowedModel : Model (Exact .standard) where
  name := "Shadow"
  states := ["a__b"]
  algebraics := []
  constants := []
  parameters := ["a__b"]
  inputs := []
  outputs := []
  stateDefaults := .empty
  constantDefaults := .empty
  parameterDefaults := .empty
  inputDefaults := .empty
  residuals := [.sub (.der (.sym "a__b")) (.num (Scalar.ofInt 1))]
  missingDefaults := ["a.b", "a__b"]

/-- The time derivative of the shadowed parameter. -/
theorem lower_der_shadowed : lower (.ofClass shadowed) (.der (.ref "a__b")) =
    .ok (.der (.sym "a__b") : Expr (Exact .standard)) := by
  have hstate : Identifier.sanitize "a.b" = "a__b" := by decide +kernel
  have hparameter : Identifier.sanitize "a__b" = "a__b" := by decide +kernel
  have hstates : shadowed.groups.states = [Symbol.mk "a.b" 0 (.ofList [.state]) none none 0] := by
    cbv
  have hdynamic : (Scope.ofClass shadowed).isDynamic "a__b" = true := by
    simp [Scope.ofClass, Scope.isDynamic, hstates, hstate]
  have hresolve : (Scope.ofClass shadowed).resolve "a__b" =
      .ok (.sym "a__b" : Expr (Exact .standard)) := by
    rw [Scope.resolve_of_mem (List.mem_of_elem_eq_true rfl), hparameter]
  simp only [Expression.der, Expression.apply, Expression.ref, lower, lowerAll, hresolve]
  show lowerOperation (Scope.ofClass shadowed) "der" [.sym "a__b"] = _
  rw [lowerOperation, if_pos rfl, timeDerivative, derivative, timeLeaf, hdynamic]
  rfl

/-- The shadowed parameter has its model. -/
theorem ofClass_shadowed : Model.ofClass shadowed = .ok shadowedModel := by
  have hstate : Identifier.sanitize "a.b" = "a__b" := by decide +kernel
  have hparameter : Identifier.sanitize "a__b" = "a__b" := by decide +kernel
  have hgroups : shadowed.groups = {
      states := [Symbol.mk "a.b" 0 (.ofList [.state]) none none 0]
      inputs := []
      outputs := []
      constants := []
      parameters := [Symbol.mk "a__b" 1 (.ofList [.parameter]) none none 0]
      algebraics := [] } := by
    cbv
  have hequations : shadowed.equations.mapM (lowerEquation (Scope.ofClass shadowed)) =
      .ok shadowedModel.residuals := by
    refine mapM_eq_ok.mpr (.cons ?_ .nil)
    rw [lowerEquation, lower_der_shadowed]
    rfl
  unfold Model.ofClass
  simp only [hequations, hgroups, lowerDefaults, Symbol.default?, Option.or_self, identifiers,
    List.map_cons, List.map_nil, hstate, hparameter]
  rfl

/-- The symbol `a__b` is nothing but a parameter, yet its time derivative is in the residual. -/
theorem exists_der_of_parameter :
    shadowed.IsKeyed ∧ Model.ofClass shadowed = .ok shadowedModel ∧
      (∃ s, shadowed.symbols.find? "a__b" = some s ∧ s.roles = .ofList [.parameter]) ∧
      lower (.ofClass shadowed) (.der (.ref "a__b")) =
        .ok (.der (.sym "a__b") : Expr (Exact .standard)) ∧
      ∃ r ∈ shadowedModel.residuals, ∃ n ∈ shadowedModel.parameters,
        Expr.der (.sym n) ∈ r.parts := by
  refine ⟨?_, ofClass_shadowed, ⟨_, rfl, rfl⟩, lower_der_shadowed, _, List.mem_cons_self, "a__b",
    List.mem_cons_self, ?_⟩
  · intro p hp
    fin_cases hp <;> rfl
  · exact List.mem_cons_of_mem _ List.mem_cons_self

end Dae

end FlatModel
