import FlatModel.Emission.Source
import FlatModel.Proofs.AssemblyRun

/-!
# Why a build fails

A build fails because a reference names no symbol of its class, and for no other reason.

* `Expression.references`, …, `SourceUnit.references` — the names referred to, in order of the walk.
* `SourceUnit.faults_eq` — the faults of a unit are its references that cannot be resolved.
* `SourceUnit.Resolves` — every reference names a symbol of its class.
* `exists_build_eq_ok_iff`, `exists_generate_eq_ok_iff` — when there is a document, and when there is
  a module.
* `build_eq_error_iff` — the error is the first reference that cannot be resolved.
-/

namespace FlatModel

open Emission

/-! ## References in order of the walk -/

mutual

/-- The names that an expression refers to, from left to right. -/
def Expression.references : Expression → List String
  | .literal _ _ => []
  | .reference _ name => [name]
  | .operation _ _ operands => Expression.referencesAll operands

/-- The names that expressions refer to. -/
def Expression.referencesAll : List Expression → List String
  | [] => []
  | e :: rest => e.references ++ Expression.referencesAll rest

end

/-- Expressions refer to the names that each of them refers to. -/
theorem Expression.mem_referencesAll {name : String} {e : Expression} (hname : name ∈ e.references)
    {es : List Expression} (he : e ∈ es) : name ∈ referencesAll es := by
  induction es with
  | nil => cases he
  | cons f rest ih =>
      rw [referencesAll, List.mem_append]
      rcases List.mem_cons.mp he with rfl | he
      · exact .inl hname
      · exact .inr (ih he)

/-- The names that a symbol refers to: those in its value before those in its start value. -/
def Symbol.references (s : Symbol) : List String := Expression.referencesAll s.expressions

/-- The names that an equation refers to: those on its left before those on its right. -/
def Equation.references (e : Equation) : List String := Expression.referencesAll [e.left, e.right]

/-- The names that a class refers to: those in symbols before those in equations. -/
def ClassDef.references (c : ClassDef) : List String :=
  c.symbols.values.flatMap Symbol.references ++ c.equations.flatMap Equation.references

/-- The names that the classes of a unit refer to, each with its class. -/
def SourceUnit.references (u : SourceUnit) : List (ClassDef × String) :=
  u.classes.values.flatMap fun c => c.references.map fun name => (c, name)

mutual

/-- The names that an expression refers to do not depend on numbers. -/
theorem Expression.references_erase : ∀ e : Expression, e.erase.references = e.references
  | .literal _ _ => rfl
  | .reference _ _ => rfl
  | .operation _ _ operands => by
      rw [erase, references, references, Expression.referencesAll_eraseAll operands]

/-- The names that expressions refer to do not depend on numbers. -/
theorem Expression.referencesAll_eraseAll : ∀ es : List Expression,
    referencesAll (eraseAll es) = referencesAll es
  | [] => rfl
  | e :: rest => by
      rw [eraseAll, referencesAll, referencesAll, Expression.references_erase e,
        Expression.referencesAll_eraseAll rest]

end

/-- The names that a symbol refers to do not depend on numbers. -/
theorem Symbol.references_erase (s : Symbol) : s.erase.references = s.references := by
  have hexpressions : s.erase.expressions = Expression.eraseAll s.expressions := by
    obtain ⟨_, _, _, value, start, _⟩ := s
    cases value <;> cases start <;> rfl
  rw [references, hexpressions, Expression.referencesAll_eraseAll, references]

/-- The names that an equation refers to do not depend on numbers. -/
theorem Equation.references_erase (e : Equation) : e.erase.references = e.references :=
  Expression.referencesAll_eraseAll [e.left, e.right]

/-- The names that a class refers to do not depend on numbers. -/
theorem ClassDef.references_erase (c : ClassDef) : c.erase.references = c.references := by
  simp only [references, OrderedMap.values, erase, OrderedMap.mapValues, List.map_map,
    List.flatMap_map, Function.comp_def, Symbol.references_erase, Equation.references_erase]

/-- Every reference of the unit names a symbol of its class. -/
def SourceUnit.Resolves (u : SourceUnit) : Prop :=
  ∀ c ∈ u.classes.values, ∀ name ∈ c.references, name ∈ c.symbols.keys

/-! ## Faults are references -/

section faults

variable (scope : Emission.Scope)

/-- The faults that some names are in a scope. -/
def Emission.Scope.faults (names : List String) : List EmissionError :=
  (names.filter fun name => !scope.symbols.contains name).map (.unresolvedReference scope.name)

/-- The faults of names one after the other. -/
theorem Emission.Scope.faults_append (names names' : List String) :
    scope.faults (names ++ names') = scope.faults names ++ scope.faults names' := by
  simp [faults]

/-- The faults of names that are collected from several places. -/
theorem Emission.Scope.faults_flatMap {α : Type} (f : α → List String) (items : List α) :
    scope.faults (items.flatMap f) = items.flatMap fun a => scope.faults (f a) := by
  simp [faults, List.filter_flatMap, List.map_flatMap]

mutual

/-- The faults of an expression are among its references. -/
theorem Expression.faults_eq : ∀ e : Expression, e.faults scope = scope.faults e.references
  | .literal _ _ => rfl
  | .reference _ name => by
      by_cases h : name ∈ scope.symbols
      · simp [faults, references, Scope.faults, h]
      · simp [faults, references, Scope.faults, h]
  | .operation _ _ operands => by
      rw [faults, references, Expression.faultsAll_eq operands]

/-- The faults of expressions are among their references. -/
theorem Expression.faultsAll_eq : ∀ es : List Expression,
    faultsAll scope es = scope.faults (referencesAll es)
  | [] => rfl
  | e :: rest => by
      rw [faultsAll, referencesAll, Scope.faults_append, Expression.faults_eq e,
        Expression.faultsAll_eq rest]

end

/-- The faults of a symbol are among its references. -/
theorem Symbol.faults_eq (s : Symbol) : s.faults scope = scope.faults s.references :=
  Expression.faultsAll_eq scope s.expressions

/-- The faults of an equation are among its references. -/
theorem Equation.faults_eq (e : Equation) : e.faults scope = scope.faults e.references :=
  Expression.faultsAll_eq scope [e.left, e.right]

end faults

/-- The faults of a class are among its references. -/
theorem ClassDef.faults_eq (c : ClassDef) : c.faults = c.scope.faults c.references := by
  simp only [faults, references, Scope.faults_append, Scope.faults_flatMap, ← Symbol.faults_eq,
    ← Equation.faults_eq]

/-- **The faults of a unit** are its references that name no symbol of their class, in order. -/
theorem SourceUnit.faults_eq (u : SourceUnit) :
    u.faults = (u.references.filter fun p => !p.1.symbols.contains p.2).map
      fun p => .unresolvedReference p.1.name p.2 := by
  rw [references, List.filter_flatMap, List.map_flatMap, faults]
  congr 1
  funext c
  rw [c.faults_eq, List.filter_map, List.map_map]
  rfl

/-- The references of a unit are those of its classes. -/
theorem SourceUnit.mem_references {u : SourceUnit} {c : ClassDef} {name : String} :
    (c, name) ∈ u.references ↔ c ∈ u.classes.values ∧ name ∈ c.references := by
  simp [references]

/-- A unit has no faults just if all its references name symbols. -/
theorem SourceUnit.faults_eq_nil_iff (u : SourceUnit) : u.faults = [] ↔ u.Resolves := by
  rw [faults_eq, List.map_eq_nil_iff, List.filter_eq_nil_iff]
  simp only [Prod.forall, mem_references, Bool.not_eq_true', Bool.not_eq_false,
    OrderedMap.contains_iff]
  constructor
  · intro h c hc name hname
    exact h c name ⟨hc, hname⟩
  · rintro h c name ⟨hc, hname⟩
    exact h c hc name hname

namespace Emission

/-! ## When there is a document -/

/-- There is a document just if all references name symbols. -/
theorem exists_build_eq_ok_iff (u : SourceUnit) : (∃ r, build u = .ok r) ↔ u.Resolves := by
  obtain ⟨table, -, hbuild⟩ := build_eq u
  rw [← u.faults_eq_nil_iff, hbuild]
  rcases u.faults with _ | ⟨fault, rest⟩ <;> simp

/-- There is a module of a name just if there is a class of the name and a document. -/
theorem exists_generate_eq_ok_iff (u : SourceUnit) (model : String) :
    (∃ text, generate u model = .ok text) ↔ model ∈ u.classes.keys ∧ u.Resolves := by
  rw [← exists_build_eq_ok_iff, ← OrderedMap.contains_iff, generate]
  by_cases h : u.classes.contains model
  · rcases build u with e | r
    · simp [h, bind, Except.bind]
    · simp [h, bind, Except.bind, pure, Except.pure]
  · simp [h]

/-- **A build fails for one reason only**: the error is the first reference, in order of the walk,
that names no symbol of its class, and there is one if there is such a reference.  So a module is
generated just for the names of classes of units without such references. -/
theorem build_eq_error_iff (u : SourceUnit) :
    (∀ e, build u = .error e ↔ ∃ c name,
      u.references.find? (fun p => !p.1.symbols.contains p.2) = some (c, name) ∧
        e = .unresolvedReference c.name name) ∧
    ((∃ e, build u = .error e) ↔
      ∃ c ∈ u.classes.values, ∃ name ∈ c.references, name ∉ c.symbols.keys) ∧
    ∀ model, (∃ text, generate u model = .ok text) ↔ model ∈ u.classes.keys ∧
      ∀ c ∈ u.classes.values, ∀ name ∈ c.references, name ∈ c.symbols.keys := by
  obtain ⟨table, -, hbuild⟩ := build_eq u
  have hfirst : u.faults.head? =
      (u.references.find? fun p => !p.1.symbols.contains p.2).map
        fun p => .unresolvedReference p.1.name p.2 := by
    rw [u.faults_eq, List.head?_map, List.head?_filter]
  have herror : ∀ e, build u = .error e ↔ u.faults.head? = some e := by
    intro e
    rw [hbuild]
    rcases u.faults with _ | ⟨fault, rest⟩ <;> simp
  refine ⟨?_, ?_, exists_generate_eq_ok_iff u⟩
  · intro e
    rw [herror, hfirst, Option.map_eq_some_iff]
    simp [eq_comm]
  · have hresolves : (∃ e, build u = .error e) ↔ ¬ u.Resolves := by
      rw [← u.faults_eq_nil_iff]
      simp only [herror]
      rcases u.faults with _ | ⟨fault, rest⟩ <;> simp
    rw [hresolves]
    simp [SourceUnit.Resolves]

end Emission

end FlatModel
