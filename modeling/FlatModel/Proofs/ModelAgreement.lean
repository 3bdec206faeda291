import Mathlib
import FlatModel.Dae.Lowering
import FlatModel.Proofs.AssemblyRun
import FlatModel.Proofs.Value

/-!
# The document and the model of a class

A class is translated twice: into the document of a generated module, and into a model whose
equations are solved at once.  The two describe the same thing.

* `Dae.Model.vector`, `Dae.Model.defaults` — the vectors and the defaults of a model by kind.
* `Dae.lowerDefaults_eq_ok` — the defaults of a model are the default expressions of its symbols,
  and the symbols without one are reported.
* `Merges` — a map of lowered defaults against the default expressions it is made from.
* `Agrees` — a document and a model that describe the same class.
* `build_agrees` — the document of a class agrees with its model.
-/

namespace FlatModel

open Emission Symbolic

variable {K : Type} [Scalar K]

/-! ## Models by kind of vector -/

/-- The identifiers in a vector of a model. -/
def Dae.Model.vector (m : Dae.Model K) : VectorKind → List String
  | .states => m.states
  | .algebraics => m.algebraics
  | .constants => m.constants
  | .parameters => m.parameters
  | .inputs => m.inputs
  | .outputs => m.outputs

/-- The defaults of a vector of a model. -/
def Dae.Model.defaults (m : Dae.Model K) : VectorKind → OrderedMap (Expr K)
  | .states => m.stateDefaults
  | .constants => m.constantDefaults
  | .parameters => m.parameterDefaults
  | .inputs => m.inputDefaults
  | .algebraics | .outputs => .empty

/-! ## Lowered defaults -/

section defaults

variable {scope : Dae.Scope} {ε α β : Type} {f : α → Except ε β}

/-- The defaults of symbols, lowered. -/
theorem Dae.lowerDefaults_eq_ok : ∀ {symbols : List Symbol}
    {found : List (String × Expr K) × List String}, Dae.lowerDefaults scope symbols = .ok found →
      List.Forall₂ (fun p q => p.1 = q.1 ∧ Dae.lower scope p.2 = .ok q.2)
          (defaultsOf symbols) found.1 ∧
        found.2 = withoutDefault symbols
  | [], found, h => by
      cases h
      exact ⟨.nil, rfl⟩
  | s :: rest, found, h => by
      rw [Dae.lowerDefaults] at h
      rcases hs : s.default? with _ | e
      · rw [hs] at h
        obtain ⟨more, hmore, h⟩ := bind_eq_ok.mp h
        cases h
        obtain ⟨hpairs, hmissing⟩ := lowerDefaults_eq_ok hmore
        rw [defaultsOf_cons_of_none _ hs, withoutDefault_cons_of_none _ hs]
        exact ⟨hpairs, congrArg (s.name :: ·) hmissing⟩
      · rw [hs] at h
        obtain ⟨value, hvalue, h⟩ := bind_eq_ok.mp h
        obtain ⟨more, hmore, h⟩ := bind_eq_ok.mp h
        cases h
        obtain ⟨hpairs, hmissing⟩ := lowerDefaults_eq_ok hmore
        rw [defaultsOf_cons_of_some _ hs, withoutDefault_cons_of_some _ hs]
        exact ⟨.cons ⟨rfl, hvalue⟩ hpairs, hmissing⟩

/-- Looking up in a list of pairs and in the list of their results. -/
theorem lookup_eq_some_iff_of_forall₂ {ps : List (String × α)} {qs : List (String × β)}
    (h : List.Forall₂ (fun p q => p.1 = q.1 ∧ f p.2 = .ok q.2) ps qs) (key : String) (b : β) :
    qs.lookup key = some b ↔ ∃ a, ps.lookup key = some a ∧ f a = .ok b := by
  induction h with
  | nil => exact ⟨nofun, fun ⟨_, ha, _⟩ => nomatch ha⟩
  | @cons p q ps qs hpq _ ih =>
      obtain ⟨k, a⟩ := p
      obtain ⟨k', c⟩ := q
      obtain ⟨rfl : k = k', hac : f a = .ok c⟩ := hpq
      simp only [OrderedMap.lookup_cons_eq_ite]
      split
      · simp only [Option.some.injEq, exists_eq_left', hac, Except.ok.injEq]
      · exact ih

/-- The map holds the lowered default expressions: every identifier stands where it occurs first and
has its last expression. -/
structure Merges (scope : Dae.Scope) (defaults : List (String × Expression))
    (map : OrderedMap (Expr K)) : Prop where
  /-- The identifiers, each at its first place. -/
  keys : map.keys = (defaults.map Prod.fst).eraseDups
  /-- The value of an identifier is its last expression, lowered. -/
  find? : ∀ key value, map.find? key = some value ↔
    ∃ e, defaults.reverse.lookup key = some e ∧ Dae.lower scope e = .ok value

/-- The defaults of symbols, lowered and put into a map. -/
theorem Dae.merges_lowerDefaults {symbols : List Symbol}
    {found : List (String × Expr K) × List String}
    (h : Dae.lowerDefaults scope symbols = .ok found) :
    Merges scope (defaultsOf symbols) (.ofList found.1) := by
  obtain ⟨hpairs, -⟩ := Dae.lowerDefaults_eq_ok h
  constructor
  · have hnames : found.1.map Prod.fst = (defaultsOf symbols).map Prod.fst := by
      have hall := hpairs.imp fun _ _ hp => hp.1
      rw [← List.forall₂_eq_eq_eq, List.forall₂_map_left_iff, List.forall₂_map_right_iff]
      exact hall.flip.imp fun _ _ hp => Eq.symm hp
    rw [OrderedMap.keys_ofList, hnames]
  · intro key value
    rw [OrderedMap.find?_ofList]
    exact lookup_eq_some_iff_of_forall₂ (List.forall₂_reverse_iff.mpr hpairs) key value

end defaults

/-! ## Agreement -/

/-- The document `d` and the model `m` describe the class `c` alike. -/
structure Agrees (c : ClassDef) (d : ModelDoc) (m : Dae.Model K) : Prop where
  /-- They have the same name. -/
  name : d.name = m.name
  /-- The document has every vector once. -/
  kinds : d.vectors.map VectorDoc.kind = VectorKind.all
  /-- The vectors have the same members. -/
  members : ∀ v ∈ d.vectors, v.members = m.vector v.kind
  /-- The document has the default expressions of each vector that comes with defaults. -/
  entries : ∀ v ∈ d.vectors, v.kind.hasDefaults = true →
    v.defaults = (defaultsOf (v.kind.select c.groups)).map DefaultEntry.direct
  /-- The model has the same expressions, lowered and with repeated identifiers merged. -/
  merges : ∀ v ∈ d.vectors, v.kind.hasDefaults = true →
    Merges (.ofClass c) (defaultsOf (v.kind.select c.groups)) (m.defaults v.kind)
  /-- There are as many equations as residuals. -/
  length : d.equations.length = m.residuals.length
  /-- The document has the equations. -/
  equations : d.equations = c.equations.map Equation.translation
  /-- The model has the same equations, lowered. -/
  residuals : List.Forall₂ (fun e r => Dae.lowerEquation (.ofClass c) e = .ok r)
    c.equations m.residuals
  /-- The same defaults are missing. -/
  missing : d.missingDefaults = m.missingDefaults

/-- What the document of a class reports as missing, vector by vector. -/
theorem missingDefaults_direct (c : ClassDef) :
    (ModelDoc.direct c).missingDefaults =
      withoutDefault c.groups.states ++ withoutDefault c.groups.constants ++
        withoutDefault c.groups.parameters ++ withoutDefault c.groups.inputs := by
  have hall : (ModelDoc.direct c).missingDefaults = withoutDefault c.groups.states ++ ([] ++
      (withoutDefault c.groups.constants ++ (withoutDefault c.groups.parameters ++
        (withoutDefault c.groups.inputs ++ ([] ++ []))))) := rfl
  rw [hall]
  simp only [List.nil_append, List.append_nil, List.append_assoc]

/-- The direct document of a class agrees with its model. -/
theorem direct_agrees {c : ClassDef} {m : Dae.Model K} (h : Dae.Model.ofClass c = .ok m) :
    Agrees c (.direct c) m := by
  obtain ⟨x0, c0, p0, u0, residuals, hx, hc, hp, hu, hr, rfl⟩ := Dae.Model.ofClass_parts h
  have hresiduals := mapM_eq_ok.mp hr
  refine ⟨rfl, rfl, ?members, ?entries, ?merges, ?length, rfl, hresiduals, ?missing⟩
  case members =>
    intro v hv
    obtain ⟨k, -, rfl⟩ := List.mem_map.mp hv
    cases k <;> rfl
  case entries =>
    intro v hv hdefaults
    obtain ⟨k, -, rfl⟩ := List.mem_map.mp hv
    exact if_pos hdefaults
  case merges =>
    intro v hv hdefaults
    obtain ⟨k, -, rfl⟩ := List.mem_map.mp hv
    cases k with
    | states => exact Dae.merges_lowerDefaults hx
    | constants => exact Dae.merges_lowerDefaults hc
    | parameters => exact Dae.merges_lowerDefaults hp
    | inputs => exact Dae.merges_lowerDefaults hu
    | algebraics | outputs => cases hdefaults
  case length => exact (List.length_map _).trans hresiduals.length_eq
  case missing =>
    show _ = x0.2 ++ c0.2 ++ p0.2 ++ u0.2
    rw [(Dae.lowerDefaults_eq_ok hx).2, (Dae.lowerDefaults_eq_ok hc).2,
      (Dae.lowerDefaults_eq_ok hp).2, (Dae.lowerDefaults_eq_ok hu).2, missingDefaults_direct]

/-- **The document of a class agrees with its model.**  Of every unit that is built, the documents
are those of its classes in order of their names, and each agrees with the model of the class if
the class has one. -/
theorem build_agrees {u : SourceUnit} {doc : UnitDoc} {table : FragmentTable}
    (h : build u = .ok (doc, table)) :
    List.Forall₂ (fun c d => ∀ m : Dae.Model K, Dae.Model.ofClass c = .ok m → Agrees c d m)
      (u.classes.sortedBy fun p q => p.1 ≤ q.1).values doc.models := by
  obtain ⟨_, -, hbuild⟩ := build_eq u
  rw [h] at hbuild
  rcases hfaults : u.faults with _ | ⟨fault, rest⟩
  · rw [hfaults] at hbuild
    cases hbuild
    show List.Forall₂ _ _ (List.map ModelDoc.direct _)
    rw [List.forall₂_map_right_iff, List.forall₂_same]
    exact fun _ _ _ => direct_agrees
  · rw [hfaults] at hbuild
    cases hbuild

/-! ### Two states with one identifier -/

/-- Two states `a.b` and `a__b`, the first with a value and a start value, the second with a start
value only, a constant without value and an input that is a parameter too. -/
def collision : ClassDef :=
  let symbols := [
    Symbol.mk "a.b" 0 (.ofList [.state]) (some (.ofLiteral (.integer 1)))
      (some (.ofLiteral (.integer 2))) 0,
    Symbol.mk "a__b" 1 (.ofList [.state]) none (some (.ref "k")) 0,
    Symbol.mk "k" 2 (.ofList [.constant]) none none 0,
    Symbol.mk "u" 3 (.ofList [.parameter, .input]) (some (.ref "k")) none 0]
  let c := symbols.foldl ClassDef.addSymbol (.new "Collision")
  c.addEquation (.der (.ref "a.b")) (.ref "u")

/-- The unit of the one class. -/
def collisionUnit : SourceUnit := ⟨.ofList [("Collision", collision)], 0⟩

/-- The model of the two states with one identifier. -/
def collisionModel : Dae.Model (Exact .standard) where
  name := "Collision"
  states := ["a__b", "a__b"]
  algebraics := []
  constants := ["k"]
  parameters := ["u"]
  inputs := ["u"]
  outputs := []
  stateDefaults := .ofList [("a__b", .sym "k")]
  constantDefaults := .empty
  parameterDefaults := .ofList [("u", .sym "k")]
  inputDefaults := .ofList [("u", .sym "k")]
  residuals := [.sub (.der (.sym "a__b")) (.sym "u")]
  missingDefaults := ["k"]

/-- The class has its model. -/
theorem ofClass_collision : Dae.Model.ofClass collision = .ok collisionModel := by
  have hab : Identifier.sanitize "a.b" = "a__b" := by decide +kernel
  have hab' : Identifier.sanitize "a__b" = "a__b" := by decide +kernel
  have hk : Identifier.sanitize "k" = "k" := by decide +kernel
  have hu : Identifier.sanitize "u" = "u" := by decide +kernel
  have hgroups : collision.groups = {
      states := [
        Symbol.mk "a.b" 0 (.ofList [.state]) (some (.literal 0 (.integer 1)))
          (some (.literal 0 (.integer 2))) 0,
        Symbol.mk "a__b" 1 (.ofList [.state]) none (some (.reference 0 "k")) 0]
      inputs := [Symbol.mk "u" 3 (.ofList [.parameter, .input]) (some (.reference 0 "k")) none 0]
      outputs := []
      constants := [Symbol.mk "k" 2 (.ofList [.constant]) none none 0]
      parameters := [
        Symbol.mk "u" 3 (.ofList [.parameter, .input]) (some (.reference 0 "k")) none 0]
      algebraics := [] } := by
    cbv
  have hscope : Dae.Scope.ofClass collision =
      ⟨["a.b", "a__b", "k", "u"], ["a__b", "a__b", "u"]⟩ := by
    simp only [Dae.Scope.ofClass, hgroups, List.map, hab, hab', hu, List.cons_append,
      List.nil_append]
    rfl
  have hresolve : ∀ name ∈ ["a.b", "a__b", "k", "u"],
      (Dae.Scope.ofClass collision).resolve name =
        .ok (.sym (Identifier.sanitize name) : Expr (Exact .standard)) := by
    intro name hname
    rw [hscope, Dae.Scope.resolve, List.contains_iff_mem.mpr hname, if_pos rfl]
  have hx := hresolve "a.b" (by decide)
  have hk' := hresolve "k" (by decide)
  have hu' := hresolve "u" (by decide)
  rw [hab] at hx
  rw [hk] at hk'
  rw [hu] at hu'
  have hequations : collision.equations.mapM (Dae.lowerEquation (Dae.Scope.ofClass collision)) =
      .ok collisionModel.residuals := by
    refine mapM_eq_ok.mpr (.cons ?_ .nil)
    simp only [Expression.der, Expression.apply, Expression.ref, Dae.lowerEquation, Dae.lower,
      Dae.lowerAll, hx, hu']
    simp only [hscope]
    rfl
  unfold Dae.Model.ofClass
  simp only [hequations, hgroups, Dae.lowerDefaults, Symbol.default?, Option.or_some,
    Option.or_none, Option.getD_some, Option.getD_none, Dae.lower, hk', hab, hab', hk, hu,
    Dae.identifiers, List.map_cons, List.map_nil]
  rfl

/-- The document of the two states with one identifier: the default of the second one counts. -/
theorem build_agrees_of_collision :
    ∃ doc table d, build collisionUnit = .ok (doc, table) ∧
      Dae.Model.ofClass collision = .ok collisionModel ∧ doc.models = [d] ∧
      Agrees collision d collisionModel ∧ d.missingDefaults = ["k"] ∧
      collisionModel.stateDefaults.keys = ["a__b"] ∧
      collisionModel.stateDefaults.find? "a__b" = some (.sym "k") := by
  have hfaults : collisionUnit.faults = [] := by decide +kernel
  have hclasses : (collisionUnit.classes.sortedBy fun p q => p.1 ≤ q.1).values = [collision] := by
    have hentries : collisionUnit.classes.entries = [("Collision", collision)] := rfl
    rw [OrderedMap.values, OrderedMap.entries_sortedBy, hentries, List.mergeSort_singleton]
    rfl
  obtain ⟨table, -, hbuild⟩ := build_eq collisionUnit
  rw [hfaults] at hbuild
  have hagree := build_agrees (K := Exact .standard) hbuild
  rw [hclasses, List.forall₂_cons_left_iff] at hagree
  obtain ⟨d, rest, hd, hrest, hmodels⟩ := hagree
  rw [List.forall₂_nil_left_iff] at hrest
  subst hrest
  have h := hd collisionModel ofClass_collision
  exact ⟨_, table, d, hbuild, ofClass_collision, hmodels, h, h.missing, rfl, rfl⟩

end FlatModel
