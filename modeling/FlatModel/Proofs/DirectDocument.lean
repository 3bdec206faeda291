import Mathlib.Data.List.Forall2
import FlatModel.Emission.Document
import FlatModel.Proofs.ModelOfClass
import FlatModel.Proofs.Translation

/-!
# Direct documents

The document of a class by recursion over the class, without a table of fragments.

* `SymbolGroups.select_ofList_map` — a change of symbols that leaves places and roles alone does not
  change groups.
* `defaultsOf`, `withoutDefault` — the default expressions of symbols under their identifiers, and
  the names of the symbols without one.
* `VectorDoc.direct`, `ModelDoc.direct` — the document of a vector and of a class.
* `ModelDoc.direct_number` — the document does not depend on the numbers of the nodes.
* `ModelDoc.build_eq_direct`, `build_number` — it is the document built with any table in which the
  nodes of the class are found with their texts.
-/

namespace FlatModel

open Emission

/-! ## Groups of changed symbols -/

section groups

variable {f : Symbol → Symbol} (horder : ∀ s, (f s).order = s.order)
  (hroles : ∀ s, (f s).roles = s.roles)

include horder

/-- A change that leaves places alone does not change the order. -/
theorem SymbolGroups.inOrder_map (symbols : List Symbol) :
    inOrder (symbols.map f) = (inOrder symbols).map f := by
  symm
  refine List.map_mergeSort fun a _ b _ => ?_
  rw [horder, horder]

include hroles

/-- A change that leaves places and roles alone does not change groups. -/
theorem SymbolGroups.select_ofList_map (k : VectorKind) (symbols : List Symbol) :
    k.select (.ofList (symbols.map f)) = (k.select (.ofList symbols)).map f := by
  have hfilter : ∀ (p : Roles → Bool) (l : List Symbol),
      (l.map f).filter (fun s => p s.roles) = (l.filter fun s => p s.roles).map f := by
    intro p l
    rw [List.filter_map]
    congr 2
    funext s
    exact congrArg p (hroles s)
  have hplaying : ∀ r : Role, (inOrder (symbols.map f)).filter (fun s => s.is r) =
      ((inOrder symbols).filter fun s => s.is r).map f := by
    intro r
    rw [inOrder_map horder]
    exact hfilter (fun roles => roles.contains r) _
  cases k with
  | states => exact hplaying .state
  | constants => exact hplaying .constant
  | parameters => exact hplaying .parameter
  | inputs => exact hplaying .input
  | outputs => exact hplaying .output
  | algebraics =>
      refine (congrArg₂ (· ++ ·) ?_ ?_).trans List.map_append.symm
      · rw [inOrder_map horder]
        exact hfilter Roles.isEmpty _
      · show ((inOrder (symbols.map f)).filter fun s => s.is .output).filter _ = _
        rw [hplaying]
        exact hfilter (fun roles => !roles.contains .state) _

end groups

/-- The groups of a class without numbers. -/
theorem ClassDef.select_erase (c : ClassDef) (k : VectorKind) :
    k.select c.erase.groups = (k.select c.groups).map Symbol.erase := by
  have hvalues : c.erase.symbols.values = c.symbols.values.map Symbol.erase := by
    show (c.symbols.entries.map _).map Prod.snd = (c.symbols.entries.map Prod.snd).map _
    rw [List.map_map, List.map_map]
    rfl
  rw [groups, hvalues]
  exact SymbolGroups.select_ofList_map (f := Symbol.erase) (fun _ => rfl) (fun _ => rfl) k _

namespace Emission

/-! ## Defaults -/

/-- The default expressions of symbols under their identifiers. -/
def defaultsOf (symbols : List Symbol) : List (String × Expression) :=
  symbols.filterMap fun s => s.default?.map fun e => (Identifier.sanitize s.name, e)

/-- The names of the symbols without a default. -/
def withoutDefault (symbols : List Symbol) : List String :=
  (symbols.filter fun s => s.default?.isNone).map Symbol.name

/-- A default expression of the document. -/
def DefaultEntry.direct (p : String × Expression) : DefaultEntry := ⟨p.1, p.2.translation⟩

theorem DefaultEntry.direct_mk (key : String) (e : Expression) :
    direct (key, e) = ⟨key, e.translation⟩ := rfl

section defaults

variable {s : Symbol} {e : Expression} (rest : List Symbol)

theorem defaultsOf_cons_of_some (h : s.default? = some e) :
    defaultsOf (s :: rest) = (Identifier.sanitize s.name, e) :: defaultsOf rest := by
  rw [defaultsOf, List.filterMap_cons, h]
  rfl

theorem defaultsOf_cons_of_none (h : s.default? = none) :
    defaultsOf (s :: rest) = defaultsOf rest := by
  rw [defaultsOf, List.filterMap_cons, h]
  rfl

theorem withoutDefault_cons_of_some (h : s.default? = some e) :
    withoutDefault (s :: rest) = withoutDefault rest := by
  rw [withoutDefault, List.filter_cons, h]
  rfl

theorem withoutDefault_cons_of_none (h : s.default? = none) :
    withoutDefault (s :: rest) = s.name :: withoutDefault rest := by
  rw [withoutDefault, List.filter_cons, h]
  rfl

end defaults

/-- The default expressions of symbols without numbers. -/
theorem defaultsOf_erase : ∀ symbols : List Symbol,
    (defaultsOf (symbols.map Symbol.erase)).map DefaultEntry.direct =
      (defaultsOf symbols).map DefaultEntry.direct
  | [] => rfl
  | s :: rest => by
      have ih := defaultsOf_erase rest
      have hs := s.default?_erase
      rcases h : s.default? with _ | e
      · rw [h] at hs
        rw [List.map_cons, defaultsOf_cons_of_none _ hs, defaultsOf_cons_of_none _ h, ih]
      · rw [h] at hs
        rw [List.map_cons, defaultsOf_cons_of_some _ hs, defaultsOf_cons_of_some _ h, List.map_cons,
          List.map_cons, ih, DefaultEntry.direct_mk, DefaultEntry.direct_mk, e.translation_erase,
          s.name_erase]

/-- The symbols without default and without numbers. -/
theorem withoutDefault_erase : ∀ symbols : List Symbol,
    withoutDefault (symbols.map Symbol.erase) = withoutDefault symbols
  | [] => rfl
  | s :: rest => by
      have ih := withoutDefault_erase rest
      have hs := s.default?_erase
      rcases h : s.default? with _ | e
      · rw [h] at hs
        rw [List.map_cons, withoutDefault_cons_of_none _ hs, withoutDefault_cons_of_none _ h, ih]
        rfl
      · rw [h] at hs
        rw [List.map_cons, withoutDefault_cons_of_some _ hs, withoutDefault_cons_of_some _ h, ih]

/-! ## Documents -/

/-- The document of a vector with the given symbols. -/
def VectorDoc.direct (k : VectorKind) (symbols : List Symbol) : VectorDoc where
  kind := k
  declaration := declare k (symbols.map fun s => Identifier.sanitize s.name)
  members := symbols.map fun s => Identifier.sanitize s.name
  defaults := if k.hasDefaults then (defaultsOf symbols).map DefaultEntry.direct else []
  missing := if k.hasDefaults then withoutDefault symbols else []

/-- The document of a class. -/
def ModelDoc.direct (c : ClassDef) : ModelDoc where
  name := c.name
  vectors := VectorKind.all.map fun k => .direct k (k.select c.groups)
  equations := c.equations.map Equation.translation
  missingDefaults := VectorKind.all.flatMap fun k =>
    if k.hasDefaults then withoutDefault (k.select c.groups) else []

/-- The document of a vector does not depend on numbers. -/
theorem VectorDoc.direct_erase (k : VectorKind) (symbols : List Symbol) :
    direct k (symbols.map Symbol.erase) = direct k symbols := by
  have hmembers : (symbols.map Symbol.erase).map (fun s => Identifier.sanitize s.name) =
      symbols.map fun s => Identifier.sanitize s.name := by
    simp only [List.map_map, Function.comp_def, Symbol.name_erase]
  unfold direct
  rw [hmembers, defaultsOf_erase, withoutDefault_erase]

/-- The document of a class does not depend on numbers. -/
theorem ModelDoc.direct_erase (c : ClassDef) : direct c.erase = direct c := by
  have hvectors : ∀ k : VectorKind, VectorDoc.direct k (k.select c.erase.groups) =
      VectorDoc.direct k (k.select c.groups) := by
    intro k
    rw [c.select_erase, VectorDoc.direct_erase]
  have hmissing : ∀ k : VectorKind, withoutDefault (k.select c.erase.groups) =
      withoutDefault (k.select c.groups) := by
    intro k
    rw [c.select_erase, withoutDefault_erase]
  have hequations : c.erase.equations.map Equation.translation =
      c.equations.map Equation.translation := by
    show (c.equations.map Equation.erase).map Equation.translation = _
    rw [List.map_map]
    exact List.map_congr_left fun e _ => e.translation_erase
  unfold direct
  rw [hequations]
  simp only [hvectors, hmissing]
  rfl

/-- **The document of a numbered class** is that of the class. -/
theorem ModelDoc.direct_number (c : ClassDef) (n : Nat) : direct (c.number n).1 = direct c := by
  rw [← direct_erase, c.erase_number, direct_erase]

/-! ## Built from a table -/

section build

variable {t : FragmentTable}

/-- A fragment is read just if the node has it. -/
theorem FragmentTable.fragment_eq_ok {id : Nat} {text : String} :
    t.fragment id = .ok text ↔ t.get? id = some text := by
  unfold fragment
  rcases t.get? id with _ | found <;> simp

/-- Reading the fragments of nodes that are found. -/
theorem FragmentTable.mapM_fragment {α : Type} {id : α → Nat} {text : α → String} {items : List α}
    (h : ∀ a ∈ items, t.get? (id a) = some (text a)) :
    items.mapM (fun a => t.fragment (id a)) = .ok (items.map text) := by
  refine mapM_eq_ok.mpr ?_
  rw [List.forall₂_map_right_iff, List.forall₂_same]
  exact fun a ha => fragment_eq_ok.mpr (h a ha)

/-- The default values of symbols that are found. -/
theorem VectorDoc.collectDefaults_eq : ∀ {symbols : List Symbol},
    (∀ s ∈ symbols, s.Shown t.get?) →
      collectDefaults t (symbols.map fun s => (s, Identifier.sanitize s.name)) =
        .ok ((defaultsOf symbols).map DefaultEntry.direct, withoutDefault symbols)
  | [], _ => rfl
  | s :: rest, h => by
      have ih := collectDefaults_eq fun a ha => h a (List.mem_cons_of_mem s ha)
      rw [List.map_cons, collectDefaults]
      rcases hs : s.default? with _ | e
      · rw [defaultsOf_cons_of_none _ hs, withoutDefault_cons_of_none _ hs]
        exact bind_eq_ok.mpr ⟨_, ih, rfl⟩
      · have he : t.get? e.id = some e.translation := by
          refine (h s List.mem_cons_self).expressions e ?_
          rw [Symbol.default?, Option.or_eq_some_iff] at hs
          rcases hs with hvalue | ⟨_, hstart⟩
          · exact List.mem_append_left _ (Option.mem_toList.mpr hvalue)
          · exact List.mem_append_right _ (Option.mem_toList.mpr hstart)
        rw [defaultsOf_cons_of_some _ hs, withoutDefault_cons_of_some _ hs, List.map_cons,
          DefaultEntry.direct_mk]
        exact bind_eq_ok.mpr
          ⟨_, FragmentTable.fragment_eq_ok.mpr he, bind_eq_ok.mpr ⟨_, ih, rfl⟩⟩

/-- The document of a vector whose symbols are found. -/
theorem VectorDoc.build_eq_direct (k : VectorKind) {symbols : List Symbol}
    (h : ∀ s ∈ symbols, s.Shown t.get?) : build k symbols t = .ok (direct k symbols) := by
  have hmembers := FragmentTable.mapM_fragment fun s hs => (h s hs).ident
  have hdefaults := collectDefaults_eq h
  rw [List.map_prod_left_eq_zip] at hdefaults
  refine bind_eq_ok.mpr ⟨_, hmembers, ?_⟩
  rw [direct]
  rcases k.hasDefaults with _ | _
  · rfl
  · exact bind_eq_ok.mpr ⟨_, hdefaults, rfl⟩

/-- The symbols of a vector are symbols of the class. -/
theorem VectorKind.mem_of_mem_select (k : VectorKind) {symbols : List Symbol} {s : Symbol}
    (h : s ∈ k.select (.ofList symbols)) : s ∈ symbols := by
  cases k with
  | algebraics => exact (SymbolGroups.mem_algebraics.mp h).1
  | states | constants | parameters | inputs | outputs => exact (SymbolGroups.mem_playing.mp h).1

/-- Every vector is written. -/
theorem VectorKind.mem_all (k : VectorKind) : k ∈ all := by
  cases k <;> decide

/-- Every symbol of a class is in a vector. -/
theorem VectorKind.exists_mem_select {symbols : List Symbol} {s : Symbol} (h : s ∈ symbols) :
    ∃ k : VectorKind, s ∈ k.select (.ofList symbols) := by
  rcases SymbolGroups.mem_group h with h | h | h | h | h
  · exact ⟨.states, h⟩
  · exact ⟨.algebraics, h⟩
  · exact ⟨.constants, h⟩
  · exact ⟨.parameters, h⟩
  · exact ⟨.inputs, h⟩

/-- **The document of a class whose nodes are found.** -/
theorem ModelDoc.build_eq_direct {c : ClassDef} (hsymbols : ∀ s ∈ c.symbols.values, s.Shown t.get?)
    (hequations : ∀ e ∈ c.equations, t.get? e.id = some e.translation) :
    build c t = .ok (direct c) := by
  have hvectors : VectorKind.all.mapM (fun k => VectorDoc.build k (k.select c.groups) t) =
      .ok (VectorKind.all.map fun k => VectorDoc.direct k (k.select c.groups)) := by
    refine mapM_eq_ok.mpr ?_
    rw [List.forall₂_map_right_iff, List.forall₂_same]
    exact fun k _ => VectorDoc.build_eq_direct k fun s hs =>
      hsymbols s (k.mem_of_mem_select hs)
  rw [build, hvectors, FragmentTable.mapM_fragment hequations]
  rfl

/-- **The document of a numbered class whose slots are shown** is that of the class. -/
theorem ModelDoc.build_number {c : ClassDef} {n : Nat} (h : Shows t.get? n c.slots) :
    build (c.number n).1 t = .ok (direct c) := by
  obtain ⟨hsymbols, hequations⟩ := shows_append.mp (shows_append.mp h).1
  have hid : n + (c.symbols.values.flatMap Symbol.slots).length =
      (c.symbols.thread Symbol.number n).2 := (Symbol.thread_snd c.symbols.entries n).symm
  rw [hid] at hequations
  rw [← direct_number c n]
  refine build_eq_direct ?_ (Equation.shows_numberAll hequations)
  intro s hs
  obtain ⟨p, hp, rfl⟩ := List.mem_map.mp hs
  exact Symbol.shows_thread hsymbols p hp

end build

end Emission

end FlatModel
