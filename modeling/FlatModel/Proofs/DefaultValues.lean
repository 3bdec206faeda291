import FlatModel.Dae.Defaults
import FlatModel.Proofs.EvaluatedNames
import FlatModel.Proofs.LoweredForm
import FlatModel.Proofs.ModelAgreement
import FlatModel.Proofs.SymbolClasses

/-!
# The values of defaults

Defaults are evaluated one after the other, each with the values of those before it.  In the end
every default has the value that it has among all values, so that they can be read as equations.

* `Settled` — an environment that has the values of some defaults and nothing else;
  `Settled.insert`, `settled_evalDefaults` — one default more, and all of them.
* `lacks_of_evalDefaults_eq_error`, `evalDefaults_ne_ok_of_lacks` — evaluation stops just at a
  default that lacks something.
* `Model.functional_allDefaults` — symbols with different identifiers have one default each, in
  whatever maps it stands.
* `Model.defaultEnv_consistent` — the values of the defaults of a class.
-/

namespace FlatModel.Dae

open Emission Symbolic Symbolic.Expr

variable {K : Type} [Scalar K]

/-! ## Settled defaults -/

/-- Under one name there is one expression. -/
def Functional (defaults : List (String × Expr K)) : Prop :=
  ∀ p ∈ defaults, ∀ q ∈ defaults, p.1 = q.1 → p.2 = q.2

/-- The names of the environment are those of the defaults, and each default has in it the value
that stands under its name. -/
structure Settled (env : OrderedMap K) (defaults : List (String × Expr K)) : Prop where
  /-- The names. -/
  mem_keys : ∀ n, n ∈ env.keys ↔ n ∈ defaults.map Prod.fst
  /-- The values. -/
  value : ∀ p ∈ defaults, ∃ v, env.find? p.1 = some v ∧ p.2.eval env.find? = .ok v

omit [Scalar K] in
/-- The names of an environment with one more value. -/
theorem mem_keys_insert {env : OrderedMap K} {done : List (String × Expr K)}
    (hkeys : ∀ n, n ∈ env.keys ↔ n ∈ done.map Prod.fst) (p : String × Expr K) (v : K) (n : String) :
    n ∈ (env.insert p.1 v).keys ↔ n ∈ (done ++ [p]).map Prod.fst := by
  rw [OrderedMap.mem_keys_iff, OrderedMap.find?_insert, List.map_append, List.mem_append, ← hkeys,
    OrderedMap.mem_keys_iff, List.map_singleton, List.mem_singleton]
  by_cases hn : n = p.1
  · simp [hn]
  · simp [hn]

namespace Settled

variable {env : OrderedMap K} {done : List (String × Expr K)} {p : String × Expr K} {v : K}

/-- No value is changed when a default is evaluated again. -/
theorem find?_insert_of_find? (h : Settled env done) (hsame : ∀ q ∈ done, q.1 = p.1 → q.2 = p.2)
    (hv : p.2.eval env.find? = .ok v) {n : String} {w : K} (hw : env.find? n = some w) :
    (env.insert p.1 v).find? n = some w := by
  rw [OrderedMap.find?_insert]
  split
  · rename_i hn
    -- the name was there, so this default was evaluated before
    have hmem : n ∈ done.map Prod.fst := (h.mem_keys n).mp (OrderedMap.mem_keys_iff.mpr ⟨w, hw⟩)
    obtain ⟨q, hq, rfl⟩ := List.mem_map.mp hmem
    obtain ⟨w', hfind, heval⟩ := h.value q hq
    rw [hsame q hq hn, hv] at heval
    cases heval
    rw [← hw, hfind]
  · exact hw

/-- **One default more**, under a new name or once again. -/
theorem insert (h : Settled env done) (hsame : ∀ q ∈ done, q.1 = p.1 → q.2 = p.2)
    (hv : p.2.eval env.find? = .ok v) : Settled (env.insert p.1 v) (done ++ [p]) where
  mem_keys := mem_keys_insert h.mem_keys p v
  value := by
    have hextends : ∀ n w, env.find? n = some w → (env.insert p.1 v).find? n = some w :=
      fun n w => h.find?_insert_of_find? hsame hv
    intro q hq
    rcases List.mem_append.mp hq with hq | hq
    · obtain ⟨w, hfind, heval⟩ := h.value q hq
      exact ⟨w, hextends q.1 w hfind, eval_mono hextends heval⟩
    · cases List.mem_singleton.mp hq
      refine ⟨v, ?_, eval_mono hextends hv⟩
      rw [OrderedMap.find?_insert, if_pos rfl]

end Settled

-- By recursion over the defaults that are left.  What carries it is that an insertion changes no
-- value that is there, so that earlier defaults keep theirs.
/-- **All defaults**, of which no two differ under one name. -/
theorem settled_evalDefaults : ∀ {rest done : List (String × Expr K)} {env env' : OrderedMap K},
    Settled env done → Functional (done ++ rest) → evalDefaults env rest = .ok env' →
      Settled env' (done ++ rest)
  | [], done, env, env', h, _, hrun => by
      cases hrun
      rwa [List.append_nil]
  | p :: rest, done, env, env', h, hfunctional, hrun => by
      obtain ⟨v, hv, hrun⟩ := bind_eq_ok.mp hrun
      have hsame : ∀ q ∈ done, q.1 = p.1 → q.2 = p.2 := fun q hq =>
        hfunctional q (List.mem_append_left _ hq) p (List.mem_append_right _ List.mem_cons_self)
      have hstep := h.insert hsame (liftSymbolic_eq_ok.mp hv)
      rw [List.append_cons] at hfunctional ⊢
      exact settled_evalDefaults hstep hfunctional hrun

/-! ## Defaults without value -/

omit [Scalar K] in
/-- A name has a value if it is a name of the environment. -/
theorem exists_find?_iff {env : OrderedMap K} {done : List (String × Expr K)}
    (hkeys : ∀ n, n ∈ env.keys ↔ n ∈ done.map Prod.fst) :
    (fun n => ∃ v, env.find? n = some v) = fun n => n ∈ done.map Prod.fst := by
  funext n
  rw [← hkeys, OrderedMap.mem_keys_iff]

/-- **Evaluation stops only at a default that lacks something**: a value for a name that none of the
defaults before it has, or a function. -/
theorem lacks_of_evalDefaults_eq_error (harity : Scalar.ByArity K) {err : DaeError} :
    ∀ {rest done : List (String × Expr K)} {env : OrderedMap K},
      (∀ n, n ∈ env.keys ↔ n ∈ done.map Prod.fst) → evalDefaults env rest = .error err →
        ∃ before p after e, rest = before ++ p :: after ∧ err = .symbolic e ∧
          p.2.Lacks (· ∈ (done ++ before).map Prod.fst) e
  | [], _, _, _, h => nomatch h
  | p :: rest, done, env, hkeys, h => by
      rcases bind_eq_error.mp h with h | ⟨v, _, h⟩
      · obtain ⟨e, he, rfl⟩ := liftSymbolic_eq_error.mp h
        have hlacks := lacks_of_eval_eq_error harity he
        rw [exists_find?_iff hkeys] at hlacks
        refine ⟨[], p, rest, e, rfl, rfl, ?_⟩
        rwa [List.append_nil]
      · obtain ⟨before, q, after, e, rfl, rfl, hlacks⟩ :=
          lacks_of_evalDefaults_eq_error harity (mem_keys_insert hkeys p v) h
        refine ⟨p :: before, q, after, e, rfl, rfl, ?_⟩
        rwa [List.append_cons]

/-- **Evaluation stops at a default that lacks something.** -/
theorem evalDefaults_ne_ok_of_lacks {p : String × Expr K} {after : List (String × Expr K)}
    {e : SymbolicError} : ∀ {before done : List (String × Expr K)} {env : OrderedMap K},
      (∀ n, n ∈ env.keys ↔ n ∈ done.map Prod.fst) →
        p.2.Lacks (· ∈ (done ++ before).map Prod.fst) e →
          ∀ env', evalDefaults env (before ++ p :: after) ≠ .ok env'
  | [], done, env, hkeys, hlacks, env', h => by
      obtain ⟨v, hv, -⟩ := bind_eq_ok.mp h
      rw [List.append_nil, ← exists_find?_iff hkeys] at hlacks
      exact hlacks.eval_ne_ok (fun n w hw => ⟨w, hw⟩) v (liftSymbolic_eq_ok.mp hv)
  | q :: before, done, env, hkeys, hlacks, env', h => by
      obtain ⟨v, -, h⟩ := bind_eq_ok.mp h
      rw [List.append_cons] at hlacks
      exact evalDefaults_ne_ok_of_lacks (mem_keys_insert hkeys q v) hlacks env' h

/-! ## The defaults of a class -/

namespace Model

variable {c : ClassDef} {m : Model K}

/-- An entry of a map of defaults is the lowered default of a symbol under its identifier. -/
theorem exists_symbol_of_mem_entries {s : Scope} {symbols : List Symbol}
    {found : List (String × Expr K) × List String} (h : lowerDefaults s symbols = .ok found)
    {p : String × Expr K} (hp : p ∈ (OrderedMap.ofList found.1).entries) :
    ∃ sym ∈ symbols, ∃ x, sym.default? = some x ∧ p.1 = Identifier.sanitize sym.name ∧
      lower s x = .ok p.2 := by
  obtain ⟨x, hx, hlower⟩ := ((merges_lowerDefaults h).find? p.1 p.2).mp
    (OrderedMap.find?_eq_some_iff.mpr hp)
  have hmem : (p.1, x) ∈ defaultsOf symbols := by
    obtain ⟨_, _, hsplit, -⟩ := List.lookup_eq_some_iff.mp hx
    rw [← List.mem_reverse, hsplit]
    exact List.mem_append_right _ List.mem_cons_self
  obtain ⟨sym, hsym, hdefault⟩ := List.mem_filterMap.mp hmem
  obtain ⟨y, hy, hpair⟩ := Option.map_eq_some_iff.mp hdefault
  obtain ⟨hname, rfl⟩ := Prod.mk.inj hpair
  exact ⟨sym, hsym, y, hy, hname.symm, hlower⟩

/-- Every default of a model is the lowered default of a symbol under its identifier. -/
theorem exists_symbol_of_mem_allDefaults (hm : Model.ofClass c = .ok m) {p : String × Expr K}
    (hp : p ∈ m.allDefaults) : ∃ sym ∈ c.symbols.values, ∃ x, sym.default? = some x ∧
      p.1 = Identifier.sanitize sym.name ∧ lower (.ofClass c) x = .ok p.2 := by
  -- every group holds symbols of the class
  have hgroup : ∀ {r : Role} {found : List (String × Expr K) × List String},
      lowerDefaults (.ofClass c) ((SymbolGroups.inOrder c.symbols.values).filter fun s => s.is r) =
        .ok found → p ∈ (OrderedMap.ofList found.1).entries →
      ∃ sym ∈ c.symbols.values, ∃ x, sym.default? = some x ∧
        p.1 = Identifier.sanitize sym.name ∧ lower (.ofClass c) x = .ok p.2 := by
    intro r found hfound hp
    obtain ⟨sym, hsym, hdefault⟩ := exists_symbol_of_mem_entries hfound hp
    exact ⟨sym, (SymbolGroups.mem_playing.mp hsym).1, hdefault⟩
  obtain ⟨_, _, _, _, _, hstates, hconstants, hparameters, hinputs, _, rfl⟩ := ofClass_parts hm
  simp only [allDefaults, List.mem_append] at hp
  rcases hp with ((hp | hp) | hp) | hp
  · exact hgroup hconstants hp
  · exact hgroup hparameters hp
  · exact hgroup hstates hp
  · exact hgroup hinputs hp

/-- **Symbols with different identifiers have one default each.** -/
theorem functional_allDefaults (hidents : (identifiers c.symbols.values).Nodup)
    (hm : Model.ofClass c = .ok m) : Functional m.allDefaults := by
  intro p hp q hq hpq
  obtain ⟨s, hs, x, hx, hps, hlower⟩ := exists_symbol_of_mem_allDefaults hm hp
  obtain ⟨t, ht, y, hy, hqt, hlower'⟩ := exists_symbol_of_mem_allDefaults hm hq
  have hst : s = t := List.inj_on_of_nodup_map hidents hs ht (hps.symm.trans (hpq.trans hqt))
  subst hst
  cases hx.symm.trans hy
  exact Except.ok.inj (hlower.symm.trans hlower')

/-- **The values of the defaults of a class are consistent.**  If the identifiers of its symbols
differ, the values of the defaults, if there are any, have the names of the four maps of defaults,
and every default of every map has among all values the value under its name.  If there are none, it
is for a default that mentions a name no default before it has, or calls a function that is not
known; and such a default always stops the evaluation. -/
theorem defaultEnv_consistent {c : ClassDef} {m : Model Float}
    (hidents : (identifiers c.symbols.values).Nodup) (hm : Model.ofClass c = .ok m) :
    (∀ env, m.defaultEnv = .ok env →
      (∀ n, n ∈ env.keys ↔ n ∈ m.constantDefaults.keys ∨ n ∈ m.parameterDefaults.keys ∨
        n ∈ m.stateDefaults.keys ∨ n ∈ m.inputDefaults.keys) ∧
      ∀ p ∈ m.allDefaults, ∃ v, env.find? p.1 = some v ∧ p.2.eval env.find? = .ok v) ∧
    (∀ err, m.defaultEnv = .error err → ∃ before p after e,
      m.allDefaults = before ++ p :: after ∧ err = .symbolic e ∧
        p.2.Lacks (· ∈ before.map Prod.fst) e) ∧
    ∀ before p after e, m.allDefaults = before ++ p :: after →
      p.2.Lacks (· ∈ before.map Prod.fst) e → ∀ env, m.defaultEnv ≠ .ok env := by
  have hempty : Settled (.empty : OrderedMap Float) [] := ⟨fun _ => Iff.rfl, List.forall_mem_nil _⟩
  refine ⟨?_, ?_, ?_⟩
  · intro env henv
    have hsettled : Settled env ([] ++ m.allDefaults) :=
      settled_evalDefaults hempty (functional_allDefaults hidents hm) henv
    rw [List.nil_append] at hsettled
    refine ⟨fun n => ?_, hsettled.value⟩
    rw [hsettled.mem_keys]
    simp only [allDefaults, List.map_append, List.mem_append, or_assoc]
    rfl
  · intro err herr
    exact lacks_of_evalDefaults_eq_error Double.byArity hempty.mem_keys herr
  · intro before p after e hsplit hlacks env henv
    rw [defaultEnv, hsplit] at henv
    exact evalDefaults_ne_ok_of_lacks hempty.mem_keys hlacks env henv

/-! ### A symbol with two roles -/

/-- A state that is a parameter too, with the value a quarter. -/
def quarter : Symbol :=
  ⟨"k", 0, .ofList [.parameter, .state], some (.ofLiteral (.real 0.25)), none, 0⟩

/-- A state that starts at the square of it. -/
def square : Symbol :=
  ⟨"x", 1, .ofList [.state], none, some (.apply "*" [.ref "k", .ref "k"]), 0⟩

/-- The class of these symbols. -/
def squared : ClassDef where
  name := "M"
  symbols := .ofList [("k", quarter), ("x", square)]

/-- The model of the class: the default of `k` stands in two maps. -/
def squaredModel : Model Float where
  name := "M"
  states := ["k", "x"]
  algebraics := []
  constants := []
  parameters := ["k"]
  inputs := []
  outputs := []
  stateDefaults := .ofList [("k", .num 0.25), ("x", .mul (.sym "k") (.sym "k"))]
  constantDefaults := .empty
  parameterDefaults := .ofList [("k", .num 0.25)]
  inputDefaults := .empty
  residuals := []
  missingDefaults := []

/-- Names that are identifiers. -/
theorem sanitize_squared : Identifier.sanitize "k" = "k" ∧ Identifier.sanitize "x" = "x" := by
  decide +kernel

/-- The class has its model. -/
theorem ofClass_squared : Model.ofClass squared = .ok squaredModel := by
  obtain ⟨hk, hx⟩ := sanitize_squared
  have hsorted : SymbolGroups.inOrder squared.symbols.values = squared.symbols.values :=
    SymbolGroups.inOrder_eq_self (by decide)
  have hgroups : squared.groups = ⟨[quarter, square], [], [], [], [quarter], []⟩ := by
    rw [ClassDef.groups, SymbolGroups.ofList, hsorted]
    rfl
  have hresolve : (Scope.ofClass squared).resolve "k" = .ok (.sym "k" : Expr Float) := by
    rw [Scope.resolve_of_mem (List.mem_of_elem_eq_true rfl), hk]
  have hsquare : lower (.ofClass squared) (.apply "*" [.ref "k", .ref "k"]) =
      .ok (.mul (.sym "k") (.sym "k") : Expr Float) := by
    simp only [Expression.apply, Expression.ref, lower, lowerAll, hresolve]
    rfl
  unfold Model.ofClass
  simp only [hgroups, lowerDefaults, quarter, square, Symbol.default?, Option.or_none,
    Option.none_or, identifiers, List.map_cons, List.map_nil, hk, hx, hsquare]
  rfl

/-- Also in both maps `k` has the one value, and `x` its square. -/
theorem defaultEnv_consistent_squared :
    (identifiers squared.symbols.values).Nodup ∧ Model.ofClass squared = .ok squaredModel ∧
      ∃ env, squaredModel.defaultEnv = .ok env ∧ env.entries = [("k", 0.25), ("x", 0.0625)] ∧
        ∀ p ∈ squaredModel.allDefaults,
          ∃ v, env.find? p.1 = some v ∧ p.2.eval env.find? = .ok v := by
  have hidents : (identifiers squared.symbols.values).Nodup := by
    obtain ⟨hk, hx⟩ := sanitize_squared
    show [Identifier.sanitize "k", Identifier.sanitize "x"].Nodup
    rw [hk, hx]
    decide
  have henv : squaredModel.defaultEnv =
      .ok (.ofList [("k", 0.25), ("x", 0.25 * 0.25)]) := rfl
  have hsixteenth : (0.25 * 0.25 : Float) = 0.0625 := Float.toBits_inj.mp (by decide +kernel)
  obtain ⟨hok, -, -⟩ := defaultEnv_consistent hidents ofClass_squared
  refine ⟨hidents, ofClass_squared, _, henv, ?_, (hok _ henv).2⟩
  rw [hsixteenth]
  rfl

end Model

end FlatModel.Dae
