import FlatModel.Dae.Defaults
import FlatModel.Dae.Reduction
import FlatModel.Proofs.OutputOrder

/-!
# Models do not depend on the order of insertion

A class is lowered by the places of its symbols.  The order in which they were added does not reach
the model, nor do the numbers of nodes, and if there is no model they do not choose the error.

* `Scope.Alike` — scopes that resolve the same names, in which the same identifiers vary with time;
  `Scope.Alike.lower_eq` — an expression is lowered alike in both.
* `ClassDef.groups_erase`, `lower_erase`, `lowerDefaults_erase`, `Model.ofClass_erase` — lowering does
  not see numbers.
* `Model.ofClass_eq_of_perm` — the symbols of a class in another order.
* `Model.ofClass_eq_of_equalUpToOrder` — classes that are equal up to order have one model, and one
  explicit form, one linearization and one environment of defaults.
-/

namespace FlatModel

open Symbolic

/-- The class with its symbols in another order. -/
def ClassDef.reorder (c : ClassDef) (entries : List (String × Symbol))
    (h : entries.Perm c.symbols.entries) : ClassDef :=
  { c with symbols := c.symbols.reorder entries h }

/-- A class is equal up to order to what it becomes when its symbols are reordered. -/
theorem ClassDef.equalUpToOrder_reorder (c : ClassDef) {entries : List (String × Symbol)}
    (h : entries.Perm c.symbols.entries) : c.EqualUpToOrder (c.reorder entries h) where
  name := rfl
  symbols key :=
    congrArg _ (OrderedMap.find?_eq_of_perm (n := c.symbols.reorder entries h) h.symm key)
  equations := rfl

/-- The groups of symbols in different places do not depend on the order the symbols come in. -/
theorem SymbolGroups.ofList_eq_of_perm {symbols symbols' : List Symbol}
    (hplaces : (symbols.map Symbol.order).Nodup) (hperm : symbols.Perm symbols') :
    ofList symbols = ofList symbols' := by
  rw [ofList, ofList, inOrder_eq_of_perm hplaces hperm]

/-- The groups of the symbols of a class without numbers. -/
theorem ClassDef.groups_erase (c : ClassDef) : c.erase.groups = {
    states := c.groups.states.map Symbol.erase
    inputs := c.groups.inputs.map Symbol.erase
    outputs := c.groups.outputs.map Symbol.erase
    constants := c.groups.constants.map Symbol.erase
    parameters := c.groups.parameters.map Symbol.erase
    algebraics := c.groups.algebraics.map Symbol.erase } := by
  have hselect := c.select_erase
  rw [SymbolGroups.mk.injEq]
  exact ⟨hselect .states, hselect .inputs, hselect .outputs, hselect .constants,
    hselect .parameters, hselect .algebraics⟩

namespace Dae

variable {K : Type} [Scalar K]

/-! ## Scopes -/

namespace Scope

/-- The same names may be referred to in both scopes, and the same identifiers vary with time. -/
structure Alike (s s' : Scope) : Prop where
  /-- The names. -/
  names : ∀ name, name ∈ s.names ↔ name ∈ s'.names
  /-- The identifiers that vary with time. -/
  isDynamic : s.isDynamic = s'.isDynamic

namespace Alike

variable {s s' : Scope}

omit [Scalar K] in
/-- A name stands for the same symbol, or for none. -/
theorem resolve_eq (h : s.Alike s') (name : String) :
    (s.resolve name : Except DaeError (Expr K)) = s'.resolve name := by
  have hnames : s.names.contains name = s'.names.contains name := by
    rw [Bool.eq_iff_iff, List.contains_iff_mem, List.contains_iff_mem, h.names]
  rw [resolve, resolve, hnames]

/-- An operation over lowered operands. -/
theorem lowerOperation_eq (h : s.Alike s') (operator : String) (args : List (Expr K)) :
    lowerOperation s operator args = lowerOperation s' operator args := by
  unfold lowerOperation
  rw [h.isDynamic]

mutual

/-- **An expression is lowered alike in both scopes**, or for want of the same thing in neither. -/
theorem lower_eq (h : s.Alike s') : ∀ e : Expression,
    (lower s e : Except DaeError (Expr K)) = lower s' e
  | .literal _ _ => rfl
  | .reference _ name => h.resolve_eq name
  | .operation _ operator operands => by
      rw [lower, lower, lowerAll_eq h operands]
      simp only [h.lowerOperation_eq]

/-- Expressions are lowered alike. -/
theorem lowerAll_eq (h : s.Alike s') : ∀ es : List Expression,
    (lowerAll s es : Except DaeError (List (Expr K))) = lowerAll s' es
  | [] => rfl
  | e :: rest => by rw [lowerAll, lowerAll, lower_eq h e, lowerAll_eq h rest]

end

/-- Equations are lowered alike. -/
theorem lowerEquation_eq (h : s.Alike s') : lowerEquation (K := K) s = lowerEquation s' := by
  funext e
  rw [lowerEquation, lowerEquation, h.lower_eq, h.lower_eq]

/-- Defaults are lowered alike, the first that cannot be lowered being the same. -/
theorem lowerDefaults_eq (h : s.Alike s') : lowerDefaults (K := K) s = lowerDefaults s' := by
  funext symbols
  induction symbols with
  | nil => rfl
  | cons sym rest ih => simp only [lowerDefaults, h.lower_eq, ih]

end Alike

end Scope

/-! ## Numbers -/

section numbers

variable (s : Scope)

mutual

/-- Lowering does not see the numbers of an expression. -/
theorem lower_erase : ∀ e : Expression, (lower s e.erase : Except DaeError (Expr K)) = lower s e
  | .literal _ _ => rfl
  | .reference _ _ => rfl
  | .operation _ _ operands => by
      rw [Expression.erase, lower, lower, lowerAll_eraseAll operands]

/-- Lowering does not see the numbers of expressions. -/
theorem lowerAll_eraseAll : ∀ es : List Expression,
    (lowerAll s (Expression.eraseAll es) : Except DaeError (List (Expr K))) = lowerAll s es
  | [] => rfl
  | e :: rest => by
      rw [Expression.eraseAll, lowerAll, lowerAll, lower_erase e, lowerAll_eraseAll rest]

end

/-- Lowering does not see the numbers of an equation. -/
theorem lowerEquation_erase (e : Equation) :
    (lowerEquation s e.erase : Except DaeError (Expr K)) = lowerEquation s e := by
  rw [lowerEquation, lowerEquation, Equation.erase, lower_erase, lower_erase]

/-- Lowering does not see the numbers of defaults. -/
theorem lowerDefaults_erase (symbols : List Symbol) :
    lowerDefaults (K := K) s (symbols.map Symbol.erase) = lowerDefaults s symbols := by
  induction symbols with
  | nil => rfl
  | cons sym rest ih =>
      rw [List.map_cons, lowerDefaults, lowerDefaults, sym.default?_erase]
      cases sym.default? with
      | none => simp only [Option.map_none, ih, Symbol.name_erase]
      | some e => simp only [Option.map_some, lower_erase, ih, Symbol.name_erase]

end numbers

/-- Identifiers are made of names. -/
theorem identifiers_erase (symbols : List Symbol) :
    identifiers (symbols.map Symbol.erase) = identifiers symbols := by
  simp only [identifiers, List.map_map, Function.comp_def, Symbol.name_erase]

/-- The scope of a class does not see numbers. -/
theorem Scope.ofClass_erase (c : ClassDef) : ofClass c.erase = ofClass c := by
  have hkeys : c.erase.symbols.keys = c.symbols.keys := OrderedMap.keys_mapValues _ _
  simp only [ofClass, hkeys, c.groups_erase, ← List.map_append, List.map_map, Function.comp_def,
    Symbol.name_erase]

namespace Model

/-- **The model of a class does not depend on numbers.** -/
theorem ofClass_erase (c : ClassDef) :
    (Model.ofClass c.erase : Except DaeError (Model K)) = Model.ofClass c := by
  have hequations : c.erase.equations.mapM (lowerEquation (K := K) (Scope.ofClass c)) =
      c.equations.mapM (lowerEquation (Scope.ofClass c)) := by
    show (c.equations.map Equation.erase).mapM _ = _
    rw [List.mapM_map]
    exact congrArg (c.equations.mapM ·) (funext (lowerEquation_erase _))
  unfold Model.ofClass
  simp only [Scope.ofClass_erase, hequations, c.groups_erase, lowerDefaults_erase,
    identifiers_erase]
  rfl

/-- **The symbols of a class in another order.**  If they are in different places, they are lowered
in the same order. -/
theorem ofClass_eq_of_perm {c d : ClassDef} (hplaces : (c.symbols.values.map Symbol.order).Nodup)
    (hname : d.name = c.name) (hequations : d.equations = c.equations)
    (hsymbols : d.symbols.entries.Perm c.symbols.entries) :
    (Model.ofClass d : Except DaeError (Model K)) = Model.ofClass c := by
  have hgroups : d.groups = c.groups :=
    (SymbolGroups.ofList_eq_of_perm hplaces (hsymbols.symm.map Prod.snd)).symm
  have halike : (Scope.ofClass d).Alike (.ofClass c) := by
    constructor
    · intro name
      exact (hsymbols.map Prod.fst).mem_iff
    · simp only [Scope.ofClass, hgroups]
      rfl
  unfold Model.ofClass
  simp only [hgroups, halike.lowerDefaults_eq, halike.lowerEquation_eq, hname, hequations]

/-- **A model does not depend on the order of insertion.**  If no two symbols of a class share a
place, a class that differs from it only in the order in which the symbols were added, or in its
numbers, has the same model or fails with the same error.  The explicit form, the linearization and
the values of the defaults are the same then, too. -/
theorem ofClass_eq_of_equalUpToOrder {c : ClassDef}
    (hplaces : (c.symbols.values.map Symbol.order).Nodup) :
    (∀ (entries : List (String × Symbol)) (h : entries.Perm c.symbols.entries),
      c.EqualUpToOrder (c.reorder entries h)) ∧
    ∀ d : ClassDef, c.EqualUpToOrder d →
      (Model.ofClass d : Except DaeError (Model K)) = Model.ofClass c ∧
      (Model.ofClass d : Except DaeError (Model K)).bind reduce = (Model.ofClass c).bind reduce ∧
      (Model.ofClass d : Except DaeError (Model K)).bind linearize =
        (Model.ofClass c).bind linearize ∧
      (Model.ofClass d : Except DaeError (Model K)).bind defaultEnv =
        (Model.ofClass c).bind defaultEnv := by
  refine ⟨fun entries h => c.equalUpToOrder_reorder h, ?_⟩
  intro d hcd
  have hplaces' : (c.erase.symbols.values.map Symbol.order).Nodup := by
    have horders : c.erase.symbols.values.map Symbol.order = c.symbols.values.map Symbol.order := by
      simp only [OrderedMap.values, ClassDef.erase, OrderedMap.mapValues, List.map_map]
      rfl
    rwa [horders]
  -- without numbers nothing but the order of the symbols is left to differ
  have hmodel : (Model.ofClass d : Except DaeError (Model K)) = Model.ofClass c := by
    calc (Model.ofClass d : Except DaeError (Model K))
        = Model.ofClass d.erase := (ofClass_erase d).symm
      _ = Model.ofClass c.erase :=
          ofClass_eq_of_perm hplaces' hcd.name.symm hcd.equations.symm hcd.perm_entries.symm
      _ = Model.ofClass c := ofClass_erase c
  rw [hmodel]
  exact ⟨rfl, rfl, rfl, rfl⟩

/-! ### Two faults -/

/-- A parameter in a place whose value refers to a name. -/
def referring (name : String) (place : UInt64) (target : String) : Symbol where
  name := name
  order := place
  roles := .ofList [.parameter]
  value := some (.ref target)

/-- A class with two parameters whose values refer to nothing. -/
def dangling : ClassDef where
  name := "M"
  symbols := .ofList [("a", referring "a" 0 "p"), ("b", referring "b" 1 "q")]

/-- The entries of the class backwards. -/
theorem dangling_swap :
    [("b", referring "b" 1 "q"), ("a", referring "a" 0 "p")].Perm dangling.symbols.entries := by
  exact .swap _ _ _

/-- Also when the second parameter was added first, it is the first that has no model. -/
theorem ofClass_dangling_backwards :
    (dangling.symbols.values.map Symbol.order).Nodup ∧
      (Model.ofClass dangling : Except DaeError (Model Float)) =
        .error (.unresolvedReference "p") ∧
      (Model.ofClass (dangling.reorder _ dangling_swap) : Except DaeError (Model Float)) =
        .error (.unresolvedReference "p") := by
  have hplaces : (dangling.symbols.values.map Symbol.order).Nodup := by decide
  have hforwards : (Model.ofClass dangling : Except DaeError (Model Float)) =
      .error (.unresolvedReference "p") := by
    have hsorted : SymbolGroups.inOrder dangling.symbols.values = dangling.symbols.values :=
      SymbolGroups.inOrder_eq_self (by decide)
    have hgroups : dangling.groups =
        ⟨[], [], [], [], [referring "a" 0 "p", referring "b" 1 "q"], []⟩ := by
      rw [ClassDef.groups, SymbolGroups.ofList, hsorted]
      rfl
    unfold Model.ofClass
    rw [hgroups]
    rfl
  obtain ⟨hequal, hsame⟩ := ofClass_eq_of_equalUpToOrder (K := Float) hplaces
  refine ⟨hplaces, hforwards, ?_⟩
  rw [(hsame _ (hequal _ dangling_swap)).1, hforwards]

end Model

end Dae

end FlatModel
