import FlatModel.Proofs.DerivativeErrors
import FlatModel.Proofs.NumericValues
import FlatModel.Proofs.VisitedNodes

/-!
# Why a class has no model

A class of a unit that is built has a model, unless a text stands where a number is needed or a time
derivative is taken of an expression with a call.

* `Expr.exists_derivative` — an expression whose only calls are logarithms has a derivative, and
  this has no other calls either.
* `Expression.IsCall`, `Expression.HasCall` — the expressions that are lowered to calls.
* `Dae.calls_lower` — an expression without calls is lowered to one whose only calls are logarithms.
* `Dae.Faulty`, `Dae.faulty_of_lower` — what is wrong with an expression that cannot be lowered.
* `ClassDef.Needs` — the expressions that are lowered for the model of a class.
* `Dae.Model.ofClass_of_build` — the models of the classes of a unit that is built.
-/

namespace FlatModel

open Symbolic Symbolic.Expr

variable {K : Type} [Scalar K]

/-! ## Time derivatives without calls -/

namespace Symbolic.Expr

/-- The function that differentiation of powers brings in. -/
def IsLogarithm (f : String) (n : ℕ) : Prop := f = "log" ∧ n = 1

omit [Scalar K] in
/-- The expression calls nothing but logarithms. -/
def OnlyLogarithms (e : Expr K) : Prop := e.AllCalls IsLogarithm

/-- Simplification calls nothing new. -/
theorem OnlyLogarithms.simplify {e : Expr K} (he : e.OnlyLogarithms) : e.simplify.OnlyLogarithms :=
  hereditary_allCalls.simplify he

mutual

/-- **An expression that calls nothing but logarithms has a derivative**, which does so too.  The
induction is on the expression: a power brings in the logarithm of its base, and of a logarithm
there is a rule. -/
theorem exists_derivative {leaf : Expr K → Expr K} (hleaf : ∀ l, (leaf l).OnlyLogarithms) :
    ∀ {e : Expr K}, e.OnlyLogarithms → ∃ d, e.derivative leaf = .ok d ∧ d.OnlyLogarithms
  | .num _, _ => ⟨zero, rfl, trivial⟩
  | .sym n, _ => ⟨_, rfl, hleaf (.sym n)⟩
  | .der a, _ => ⟨_, rfl, hleaf (.der a)⟩
  | .neg a, he => by
      obtain ⟨da, hda, ha⟩ := exists_derivative hleaf (e := a) he
      exact ⟨.neg da, bind_eq_ok.mpr ⟨da, hda, rfl⟩, ha⟩
  | .add a b, he => by
      obtain ⟨da, hda, ha⟩ := exists_derivative hleaf (e := a) he.1
      obtain ⟨db, hdb, hb⟩ := exists_derivative hleaf (e := b) he.2
      exact ⟨.add da db, combine_eq_ok hda hdb, ha, hb⟩
  | .sub a b, he => by
      obtain ⟨da, hda, ha⟩ := exists_derivative hleaf (e := a) he.1
      obtain ⟨db, hdb, hb⟩ := exists_derivative hleaf (e := b) he.2
      exact ⟨.sub da db, combine_eq_ok hda hdb, ha, hb⟩
  | .mul a b, he => by
      obtain ⟨da, hda, ha⟩ := exists_derivative hleaf (e := a) he.1
      obtain ⟨db, hdb, hb⟩ := exists_derivative hleaf (e := b) he.2
      exact ⟨.add (.mul da b) (.mul a db), combine_eq_ok hda hdb, ⟨ha, he.2⟩, he.1, hb⟩
  | .div a b, he => by
      obtain ⟨da, hda, ha⟩ := exists_derivative hleaf (e := a) he.1
      obtain ⟨db, hdb, hb⟩ := exists_derivative hleaf (e := b) he.2
      exact ⟨.div (.sub (.mul da b) (.mul a db)) (square b), combine_eq_ok hda hdb,
        ⟨⟨ha, he.2⟩, he.1, hb⟩, he.2, trivial⟩
  | .pow a b, he => by
      obtain ⟨da, hda, ha⟩ := exists_derivative hleaf (e := a) he.1
      obtain ⟨db, hdb, hb⟩ := exists_derivative hleaf (e := b) he.2
      refine ⟨powDerivative a b da db.simplify, combine_eq_ok hda hdb, ?_⟩
      unfold powDerivative
      split_ifs
      · exact ⟨⟨he.2, he.1, he.2, trivial⟩, ha⟩
      · exact ⟨he, ⟨hb.simplify, ⟨rfl, rfl⟩, he.1, trivial⟩, ⟨he.2, ha⟩, he.1⟩
  | .call f args, he => by
      obtain ⟨⟨rfl, hlength⟩, hargs⟩ := he
      obtain ⟨dargs, hdargs, hsame, hall⟩ := exists_derivativeAll hleaf hargs
      obtain ⟨a, rfl⟩ := List.length_eq_one_iff.mp hlength
      obtain ⟨da, rfl⟩ := List.length_eq_one_iff.mp hsame
      by_cases hzero : [da].all isZero
      · refine ⟨zero, bind_eq_ok.mpr ⟨_, hdargs, ?_⟩, trivial⟩
        rw [callDerivative, if_pos hzero]
      · refine ⟨.mul (.div one a) da, bind_eq_ok.mpr ⟨_, hdargs, ?_⟩, ⟨trivial, hargs.1⟩, hall.1⟩
        rw [callDerivative, if_neg hzero]
        rfl

/-- Expressions that call nothing but logarithms have as many derivatives of this kind. -/
theorem exists_derivativeAll {leaf : Expr K → Expr K} (hleaf : ∀ l, (leaf l).OnlyLogarithms) :
    ∀ {s : List (Expr K)}, AllCallsOf IsLogarithm s →
      ∃ ds, derivativeAll leaf s = .ok ds ∧ ds.length = s.length ∧ AllCallsOf IsLogarithm ds
  | [], _ => ⟨[], rfl, rfl, trivial⟩
  | a :: rest, hs => by
      obtain ⟨da, hda, ha⟩ := exists_derivative hleaf (e := a) hs.1
      obtain ⟨ds, hds, hlength, hall⟩ := exists_derivativeAll hleaf (s := rest) hs.2
      exact ⟨da.simplify :: ds, bind_eq_ok.mpr ⟨da, hda, bind_eq_ok.mpr ⟨ds, hds, rfl⟩⟩,
        congrArg (· + 1) hlength, ha.simplify, hall⟩

end

variable {dynamic : String → Bool} {e : Expr K}

/-- The time derivative of an expression that calls nothing but logarithms. -/
theorem OnlyLogarithms.exists_timeDerivative (he : e.OnlyLogarithms) (dynamic : String → Bool) :
    ∃ d, e.timeDerivative dynamic = .ok d ∧ d.OnlyLogarithms := by
  have hleaf : ∀ l : Expr K, (timeLeaf dynamic l).OnlyLogarithms := by
    intro l
    unfold timeLeaf
    split
    · split_ifs <;> trivial
    · trivial
    · trivial
  obtain ⟨d, hd, honly⟩ := exists_derivative hleaf he
  exact ⟨d.simplify, bind_eq_ok.mpr ⟨d, hd, rfl⟩, honly.simplify⟩

/-- A time derivative that does not exist is for want of a rule, so there are other calls than
logarithms. -/
theorem timeDerivative_eq_error {err : SymbolicError} (h : e.timeDerivative dynamic = .error err) :
    (∃ f, err = .notDifferentiable f) ∧ ¬ e.OnlyLogarithms := by
  constructor
  · obtain ⟨f, _, _, herr, _⟩ := exists_call_of_error (derivative_eq_error h)
    exact ⟨f, herr⟩
  · intro he
    obtain ⟨d, hd, _⟩ := he.exists_timeDerivative dynamic
    rw [hd] at h
    cases h

end Symbolic.Expr

/-! ## Calls -/

/-- The operation is a function called by its name: it is neither a time derivative or a sign of one
operand nor an arithmetic operation on two. -/
def Expression.IsCall : Expression → Prop
  | .operation _ operator [_] => operator ∉ ["der", "+", "-"]
  | .operation _ operator [_, _] => operator ∉ ["+", "-", "*", "/", "^"]
  | .operation _ _ _ => True
  | _ => False

/-- A call stands in the expression. -/
def Expression.HasCall (x : Expression) : Prop := ∃ call, .content call ∈ x.nodes ∧ call.IsCall

namespace Dae

variable {s : Scope} {err : DaeError}

/-- Expressions are lowered one by one. -/
theorem lowerAll_eq_ok : ∀ {xs : List Expression} {es : List (Expr K)},
    lowerAll s xs = .ok es → List.Forall₂ (fun x e => lower s x = .ok e) xs es
  | [], _, h => by
      cases h
      exact .nil
  | _ :: _, _, h => by
      obtain ⟨a, more, ha, hmore, rfl⟩ := results_of_combine_eq_ok h
      exact .cons ha (lowerAll_eq_ok hmore)

/-- An operation that is no call, over operands that call nothing but logarithms. -/
theorem calls_lowerOperation {id : ℕ} {operator : String} {operands : List Expression}
    {args : List (Expr K)} {e : Expr K}
    (hcall : ¬ (Expression.operation id operator operands).IsCall)
    (hlength : operands.length = args.length) (hargs : AllCallsOf IsLogarithm args)
    (h : lowerOperation s operator args = .ok e) : e.OnlyLogarithms := by
  unfold lowerOperation at h
  split at h
  · rename_i a
    obtain ⟨x, rfl⟩ := List.length_eq_one_iff.mp hlength
    have hoperator : operator ∈ ["der", "+", "-"] := not_not.mp hcall
    split_ifs at h with hder hplus hminus
    · obtain ⟨d, hd, honly⟩ := OnlyLogarithms.exists_timeDerivative hargs.1 s.isDynamic
      rw [hd] at h
      cases h
      exact honly
    · cases h
      exact hargs.1
    · cases h
      exact hargs.1
    · simp [hder, hplus, hminus] at hoperator
  · rename_i a b
    obtain ⟨x, y, rfl⟩ := List.length_eq_two.mp hlength
    have hoperator : operator ∈ ["+", "-", "*", "/", "^"] := not_not.mp hcall
    cases h
    unfold arithmetic?
    split_ifs with hadd hsub hmul hdiv hpow
    iterate 5 exact ⟨hargs.1, hargs.2.1⟩
    simp [hadd, hsub, hmul, hdiv, hpow] at hoperator
  · rename_i hone htwo
    exfalso
    match operands, hlength, hcall with
    | [], _, hcall => exact hcall trivial
    | [_], hlength, _ =>
        obtain ⟨a, rfl⟩ := List.length_eq_one_iff.mp hlength.symm
        exact hone a rfl
    | [_, _], hlength, _ =>
        obtain ⟨a, b, rfl⟩ := List.length_eq_two.mp hlength.symm
        exact htwo a b rfl
    | _ :: _ :: _ :: _, _, hcall => exact hcall trivial

mutual

/-- **The calls of a lowered expression** without calls are logarithms, which time derivatives bring
in. -/
theorem calls_lower : ∀ {x : Expression} {e : Expr K}, ¬ x.HasCall → lower s x = .ok e →
    e.OnlyLogarithms
  | .literal _ value, e, _, h => by
      unfold lower lowerLiteral at h
      split at h <;> cases h
      · split_ifs <;> trivial
      · trivial
      · trivial
  | .reference _ name, e, _, h => by
      unfold lower Scope.resolve at h
      split_ifs at h
      cases h
      trivial
  | .operation id operator operands, e, hcall, h => by
      obtain ⟨args, hargs, h⟩ := bind_eq_ok.mp h
      have hself : ¬ (Expression.operation id operator operands).IsCall :=
        fun hcalls => hcall ⟨_, Expression.content_mem_nodes _, hcalls⟩
      exact calls_lowerOperation hself (lowerAll_eq_ok hargs).length_eq (calls_lowerAll operands
        (fun call hmem hcalls => hcall ⟨call, List.mem_append_left _ hmem, hcalls⟩) hargs) h

/-- The calls of lowered expressions without calls are logarithms. -/
theorem calls_lowerAll : ∀ (xs : List Expression) {es : List (Expr K)},
    (∀ call, .content call ∈ Expression.nodesAll xs → ¬ call.IsCall) → lowerAll s xs = .ok es →
      AllCallsOf IsLogarithm es
  | [], es, _, h => by
      cases h
      trivial
  | x :: rest, es, hcall, h => by
      obtain ⟨a, ha, h⟩ := bind_eq_ok.mp h
      obtain ⟨more, hmore, h⟩ := bind_eq_ok.mp h
      cases h
      refine ⟨calls_lower (x := x) ?_ ha,
        calls_lowerAll rest (fun call hmem => hcall call (List.mem_append_right _ hmem)) hmore⟩
      rintro ⟨call, hmem, hcalls⟩
      exact hcall call (List.mem_append_left _ hmem) hcalls

end

/-! ## Faults -/

/-- What is wrong with an expression of these nodes that cannot be lowered for the given reason: it
holds the text, or the time derivative of an expression with a call.  There are no other reasons. -/
def Faulty (nodes : List Node) : DaeError → Prop
  | .unsupportedLiteral text => ∃ id, .content (.literal id (.string text)) ∈ nodes
  | .symbolic (.notDifferentiable _) =>
      ∃ id operand, .content (.operation id "der" [operand]) ∈ nodes ∧ operand.HasCall
  | _ => False

/-- What is wrong with a part is wrong with the whole. -/
theorem Faulty.mono {nodes nodes' : List Node} (hsub : nodes ⊆ nodes') (h : Faulty nodes err) :
    Faulty nodes' err := by
  unfold Faulty at h ⊢
  split at h
  · obtain ⟨id, hmem⟩ := h
    exact ⟨id, hsub hmem⟩
  · obtain ⟨id, operand, hmem, hcall⟩ := h
    exact ⟨id, operand, hsub hmem, hcall⟩
  · exact h.elim

/-- An operation over lowered operands fails only if it is the time derivative of an expression with
a call. -/
theorem faulty_of_lowerOperation {id : ℕ} {operator : String} {operands : List Expression}
    {args : List (Expr K)} (hargs : lowerAll s operands = .ok args)
    (h : lowerOperation s operator args = .error err) :
    Faulty [.content (.operation id operator operands)] err := by
  unfold lowerOperation at h
  split at h
  · rename_i a
    split_ifs at h with hder
    subst hder
    obtain ⟨_, hderivative, rfl⟩ := liftSymbolic_eq_error.mp h
    obtain ⟨⟨f, rfl⟩, hcalls⟩ := timeDerivative_eq_error hderivative
    obtain ⟨x, _, hx, hrest, rfl⟩ := List.forall₂_cons_right_iff.mp (lowerAll_eq_ok hargs)
    cases hrest
    refine ⟨id, x, List.mem_cons_self, ?_⟩
    by_contra hfree
    exact hcalls (calls_lower hfree hx)
  · cases h
  · cases h

mutual

/-- **What is wrong with an expression that cannot be lowered**, if all its references name
symbols. -/
theorem faulty_of_lower : ∀ {x : Expression}, (∀ name ∈ x.references, name ∈ s.names) →
    lower (K := K) s x = .error err → Faulty x.nodes err
  | .literal id value, _, h => by
      unfold lower lowerLiteral at h
      split at h <;> cases h
      exact ⟨id, List.mem_cons_self⟩
  | .reference _ name, href, h => by
      rw [lower, Scope.resolve_of_mem (href name List.mem_cons_self)] at h
      cases h
  | .operation id operator operands, href, h => by
      rcases bind_eq_error.mp h with h | ⟨args, hargs, h⟩
      · exact (faulty_of_lowerAll operands href h).mono (List.subset_append_left _ _)
      · exact (faulty_of_lowerOperation hargs h).mono (List.subset_append_right _ _)

/-- What is wrong with expressions that cannot be lowered. -/
theorem faulty_of_lowerAll : ∀ (xs : List Expression),
    (∀ name ∈ Expression.referencesAll xs, name ∈ s.names) →
      lowerAll (K := K) s xs = .error err → Faulty (Expression.nodesAll xs) err
  | [], _, h => nomatch h
  | x :: rest, href, h => by
      rcases bind_eq_error.mp h with h | ⟨_, _, h⟩
      · exact (faulty_of_lower (fun name hname => href name (List.mem_append_left _ hname)) h).mono
          (List.subset_append_left _ _)
      · rcases bind_eq_error.mp h with h | ⟨_, _, h⟩
        · exact (faulty_of_lowerAll rest
            (fun name hname => href name (List.mem_append_right _ hname)) h).mono
            (List.subset_append_right _ _)
        · cases h

end

end Dae

/-! ## Models of classes -/

/-- The model of the class is made with the expression: it is a side of an equation, or the default
of a state, constant, parameter or input. -/
def ClassDef.Needs (c : ClassDef) (x : Expression) : Prop :=
  (∃ e ∈ c.equations, x = e.left ∨ x = e.right) ∨
    ∃ s ∈ c.symbols.values, s.default? = some x ∧
      (s.is .state = true ∨ s.is .constant = true ∨ s.is .parameter = true ∨ s.is .input = true)

/-- The default of a symbol is one of its expressions. -/
theorem Symbol.mem_expressions {s : Symbol} {x : Expression} (h : s.default? = some x) :
    x ∈ s.expressions := by
  rw [default?, Option.or_eq_some_iff] at h
  rcases h with h | ⟨_, h⟩
  · exact List.mem_append_left _ (by simp [h])
  · exact List.mem_append_right _ (by simp [h])

/-- The names in an expression that the model is made with are names that the class refers to. -/
theorem ClassDef.Needs.mem_references {c : ClassDef} {x : Expression} (hx : c.Needs x)
    {name : String} (hname : name ∈ x.references) : name ∈ c.references := by
  rw [references, List.mem_append, List.mem_flatMap, List.mem_flatMap]
  rcases hx with ⟨e, he, hside⟩ | ⟨s, hs, hdefault, _⟩
  · exact .inr ⟨e, he, Expression.mem_referencesAll hname (by simpa using hside)⟩
  · exact .inl ⟨s, hs, Expression.mem_referencesAll hname (Symbol.mem_expressions hdefault)⟩

namespace Dae

variable {err : DaeError}

/-- The defaults of symbols cannot be lowered only if one of them cannot. -/
theorem exists_of_lowerDefaults_eq_error {scope : Scope} : ∀ {symbols : List Symbol},
    lowerDefaults (K := K) scope symbols = .error err →
      ∃ s ∈ symbols, ∃ x, s.default? = some x ∧ lower (K := K) scope x = .error err
  | [], h => nomatch h
  | s :: rest, h => by
      have hrest : lowerDefaults (K := K) scope rest = .error err →
          ∃ t ∈ s :: rest, ∃ x, t.default? = some x ∧ lower (K := K) scope x = .error err := by
        intro h
        obtain ⟨t, ht, hfound⟩ := exists_of_lowerDefaults_eq_error h
        exact ⟨t, List.mem_cons_of_mem _ ht, hfound⟩
      rw [lowerDefaults] at h
      split at h
      · rename_i x hx
        rcases bind_eq_error.mp h with h | ⟨_, _, h⟩
        · exact ⟨s, List.mem_cons_self, x, hx, h⟩
        · rcases bind_eq_error.mp h with h | ⟨_, _, h⟩
          · exact hrest h
          · cases h
      · rcases bind_eq_error.mp h with h | ⟨_, _, h⟩
        · exact hrest h
        · cases h

/-- A class has no model only if an expression that the model is made with cannot be lowered. -/
theorem exists_of_ofClass_eq_error {c : ClassDef} (h : Model.ofClass (K := K) c = .error err) :
    ∃ x, c.Needs x ∧ lower (K := K) (.ofClass c) x = .error err := by
  have hdefault : ∀ {r : Role}, (r = .state ∨ r = .constant ∨ r = .parameter ∨ r = .input) →
      lowerDefaults (K := K) (.ofClass c) ((SymbolGroups.inOrder c.symbols.values).filter
        fun s => s.is r) = .error err →
        ∃ x, c.Needs x ∧ lower (K := K) (.ofClass c) x = .error err := by
    intro r hr h
    obtain ⟨s, hs, x, hx, hlower⟩ := exists_of_lowerDefaults_eq_error h
    obtain ⟨hs, hrole⟩ := SymbolGroups.mem_playing.mp hs
    refine ⟨x, .inr ⟨s, hs, hx, ?_⟩, hlower⟩
    rcases hr with rfl | rfl | rfl | rfl <;> simp [hrole]
  rcases bind_eq_error.mp h with h | ⟨_, _, h⟩
  · exact hdefault (.inl rfl) h
  rcases bind_eq_error.mp h with h | ⟨_, _, h⟩
  · exact hdefault (.inr (.inl rfl)) h
  rcases bind_eq_error.mp h with h | ⟨_, _, h⟩
  · exact hdefault (.inr (.inr (.inl rfl))) h
  rcases bind_eq_error.mp h with h | ⟨_, _, h⟩
  · exact hdefault (.inr (.inr (.inr rfl))) h
  rcases bind_eq_error.mp h with h | ⟨_, _, h⟩
  · obtain ⟨e, he, hlower⟩ := exists_of_mapM_eq_error h
    rcases combine_eq_error hlower with hlower | hlower
    · exact ⟨e.left, .inl ⟨e, he, .inl rfl⟩, hlower⟩
    · exact ⟨e.right, .inl ⟨e, he, .inr rfl⟩, hlower⟩
  · cases h

namespace Model

/-- **What is built has a model, or says why not.**  Each class of a unit that is built has a model,
unless an expression that the model is made with holds a text, which is then named, or the time
derivative of an expression with a call, of a function without a rule. -/
theorem ofClass_of_build {u : SourceUnit} {doc : Emission.UnitDoc} {table : Emission.FragmentTable}
    (hbuild : Emission.build u = .ok (doc, table)) : ∀ c ∈ u.classes.values,
      (∃ m : Model K, Model.ofClass c = .ok m) ∨
      (∃ text, Model.ofClass (K := K) c = .error (.unsupportedLiteral text) ∧
        ∃ x id, c.Needs x ∧ .content (.literal id (.string text)) ∈ x.nodes) ∨
      ∃ f, Model.ofClass (K := K) c = .error (.symbolic (.notDifferentiable f)) ∧
        ∃ x id operand call, c.Needs x ∧ .content (.operation id "der" [operand]) ∈ x.nodes ∧
          .content call ∈ operand.nodes ∧ call.IsCall := by
  intro c hc
  have hresolves := (Emission.exists_build_eq_ok_iff u).mp ⟨_, hbuild⟩ c hc
  rcases hclass : Model.ofClass (K := K) c with err | m
  · obtain ⟨x, hx, hlower⟩ := exists_of_ofClass_eq_error hclass
    have hfaulty := faulty_of_lower
      (fun name hname => hresolves name (hx.mem_references hname)) hlower
    unfold Faulty at hfaulty
    split at hfaulty
    · obtain ⟨id, hmem⟩ := hfaulty
      exact .inr (.inl ⟨_, rfl, x, id, hx, hmem⟩)
    · obtain ⟨id, operand, hmem, call, hcall, hcalls⟩ := hfaulty
      exact .inr (.inr ⟨_, rfl, x, id, operand, call, hx, hmem, hcall, hcalls⟩)
    · exact hfaulty.elim
  · exact .inl ⟨m, rfl⟩

/-! ### A table under a time derivative -/

/-- The class of `der(table(x)) = y`. -/
def sensor : ClassDef :=
  let symbols := [Symbol.mk "x" 0 (.ofList [.state]) none none 0,
    Symbol.mk "y" 1 (.ofList [.output]) none none 0]
  let c := symbols.foldl ClassDef.addSymbol (.new "Sensor")
  c.addEquation (.der (.apply "table" [.ref "x"])) (.ref "y")

/-- The symbols of the sensor by role. -/
theorem groups_sensor : sensor.groups = {
    states := [Symbol.mk "x" 0 (.ofList [.state]) none none 0]
    inputs := []
    outputs := [Symbol.mk "y" 1 (.ofList [.output]) none none 0]
    constants := []
    parameters := []
    algebraics := [Symbol.mk "y" 1 (.ofList [.output]) none none 0] } := by
  cbv

/-- The table has no derivative. -/
theorem lower_der_table : lower (K := Float) (.ofClass sensor) (.der (.apply "table" [.ref "x"])) =
    .error (.symbolic (.notDifferentiable "table")) := by
  have hx : Identifier.sanitize "x" = "x" := by decide +kernel
  have hdynamic : (Scope.ofClass sensor).isDynamic "x" = true := by
    simp [Scope.ofClass, Scope.isDynamic, groups_sensor, hx]
  have hresolve : (Scope.ofClass sensor).resolve "x" = .ok (.sym "x" : Expr Float) := by
    rw [Scope.resolve_of_mem (List.mem_of_elem_eq_true rfl), hx]
  simp only [Expression.der, Expression.apply, Expression.ref, lower, lowerAll, hresolve]
  show lowerOperation (Scope.ofClass sensor) "der" [.call "table" [.sym "x"]] = _
  rw [lowerOperation, if_pos rfl, timeDerivative, derivative, derivativeAll, derivative, timeLeaf,
    hdynamic]
  rfl

/-- The unit of the sensor is built, and the class has no model for want of a rule for the table. -/
theorem ofClass_of_build_sensor :
    ∃ u doc table, Emission.build u = .ok (doc, table) ∧ sensor ∈ u.classes.values ∧
      Model.ofClass (K := Float) sensor = .error (.symbolic (.notDifferentiable "table")) ∧
      ∃ x id operand call, sensor.Needs x ∧ .content (.operation id "der" [operand]) ∈ x.nodes ∧
        .content call ∈ operand.nodes ∧ call.IsCall := by
  let u : SourceUnit := ⟨.ofList [("Sensor", sensor)], 0⟩
  have hmem : sensor ∈ u.classes.values := List.mem_singleton_self _
  have hbuilt : ∃ r, Emission.build u = .ok r := by
    rw [Emission.exists_build_eq_ok_iff]
    unfold SourceUnit.Resolves
    decide +kernel
  obtain ⟨⟨doc, table⟩, hbuild⟩ := hbuilt
  have hequations : sensor.equations.mapM (lowerEquation (K := Float) (.ofClass sensor)) =
      .error (.symbolic (.notDifferentiable "table")) := by
    show List.mapM _ [Equation.mk _ _ _] = _
    rw [List.mapM_cons, lowerEquation, lower_der_table]
    rfl
  have hclass : Model.ofClass (K := Float) sensor =
      .error (.symbolic (.notDifferentiable "table")) := by
    unfold Model.ofClass
    simp only [hequations, groups_sensor, lowerDefaults, Symbol.default?, Option.or_self]
    rfl
  refine ⟨u, doc, table, hbuild, hmem, hclass, ?_⟩
  rcases ofClass_of_build (K := Float) hbuild sensor hmem with
    ⟨m, hm⟩ | ⟨text, htext, -⟩ | ⟨f, hf, hneeded⟩
  · rw [hclass] at hm
    cases hm
  · rw [hclass] at htext
    cases htext
  · exact hneeded

end Model

end Dae

end FlatModel
