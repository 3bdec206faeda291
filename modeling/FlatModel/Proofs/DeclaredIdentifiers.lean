import FlatModel.Proofs.BuiltUnit
import FlatModel.Proofs.Loading
import FlatModel.Proofs.UnresolvedReferences

/-!
# Identifiers that are declared

A reference is looked up under the keys of the symbol map, while a vector declares the symbols under
their own names.  Nothing in a text that can be loaded makes the two agree, so this is where they
meet: what a reference turns into is declared where the symbol under its name carries this name.

* `Expression.mem_references_of_mem_nodes`, …, `ClassDef.mem_references_of_mem_nodes` — the
  references among the nodes of a class are the names it refers to.
* `Emission.get?_of_mem_nodes`, `Emission.document_of_mem` — what a build has for a node and for a
  class of a numbered unit.
* `ModelDoc.Declares`, `ModelDoc.declares_direct_iff` — a model declares the identifiers of the
  symbols of its class and no others.
* `references_declared` — the references of a loaded unit that is built.
* `exists_undeclared_reference` — one whose identifier is declared nowhere.
-/

namespace FlatModel

open Emission

/-! ## References among nodes -/

section references

variable {id : Nat} {name : String}

mutual

/-- An expression refers to the names of the references among its nodes. -/
theorem Expression.mem_references_of_mem_nodes : ∀ e : Expression,
    .content (.reference id name) ∈ e.nodes → name ∈ e.references
  | .literal _ _, h => by simp [nodes] at h
  | .reference _ _, h => by
      simp only [nodes, List.mem_singleton, Node.content.injEq, Expression.reference.injEq] at h
      rw [references, List.mem_singleton, h.2]
  | .operation _ _ operands, h => by
      rcases List.mem_append.mp h with h | h
      · exact Expression.mem_referencesAll_of_mem_nodesAll operands h
      · simp at h

/-- Expressions refer to the names of the references among their nodes. -/
theorem Expression.mem_referencesAll_of_mem_nodesAll : ∀ es : List Expression,
    .content (.reference id name) ∈ nodesAll es → name ∈ referencesAll es
  | [], h => by simp [nodesAll] at h
  | e :: rest, h => by
      rw [referencesAll, List.mem_append]
      rcases List.mem_append.mp h with h | h
      · exact .inl (Expression.mem_references_of_mem_nodes e h)
      · exact .inr (Expression.mem_referencesAll_of_mem_nodesAll rest h)

end

/-- A symbol refers to the names of the references among its nodes. -/
theorem Symbol.mem_references_of_mem_nodes {s : Symbol}
    (h : .content (.reference id name) ∈ s.nodes) : name ∈ s.references := by
  rcases List.mem_append.mp h with h | h
  · exact Expression.mem_referencesAll_of_mem_nodesAll _ h
  · simp at h

/-- An equation refers to the names of the references among its nodes. -/
theorem Equation.mem_references_of_mem_nodes {e : Equation}
    (h : .content (.reference id name) ∈ e.nodes) : name ∈ e.references := by
  rcases List.mem_append.mp h with h | h
  · exact Expression.mem_referencesAll_of_mem_nodesAll _ h
  · simp at h

/-- **A class refers to the names of the references among its nodes.** -/
theorem ClassDef.mem_references_of_mem_nodes {c : ClassDef}
    (h : .content (.reference id name) ∈ c.nodes) : name ∈ c.references := by
  rw [nodes, List.mem_append, List.mem_append, List.mem_flatMap, List.mem_flatMap] at h
  rw [references, List.mem_append, List.mem_flatMap, List.mem_flatMap]
  rcases h with (⟨s, hs, h⟩ | ⟨e, he, h⟩) | h
  · exact .inl ⟨s, hs, Symbol.mem_references_of_mem_nodes h⟩
  · exact .inr ⟨e, he, Equation.mem_references_of_mem_nodes h⟩
  · simp at h

end references

/-- The nodes of a symbol are among those of a class that has it. -/
theorem ClassDef.mem_nodes_of_symbol {c : ClassDef} {s : Symbol} {node : Node}
    (hs : s ∈ c.symbols.values) (hnode : node ∈ s.nodes) : node ∈ c.nodes :=
  List.mem_append_left _ (List.mem_append_left _ (List.mem_flatMap.mpr ⟨s, hs, hnode⟩))

/-- The nodes of an equation are among those of a class that has it. -/
theorem ClassDef.mem_nodes_of_equation {c : ClassDef} {e : Equation} {node : Node}
    (he : e ∈ c.equations) (hnode : node ∈ e.nodes) : node ∈ c.nodes :=
  List.mem_append_left _ (List.mem_append_right _ (List.mem_flatMap.mpr ⟨e, he, hnode⟩))

/-- The nodes of a class are among those of a unit that has it. -/
theorem SourceUnit.mem_nodes {u : SourceUnit} {c : ClassDef} {node : Node}
    (hc : c ∈ u.classes.values) (hnode : node ∈ c.nodes) : node ∈ u.nodes :=
  List.mem_append_left _ (List.mem_flatMap.mpr ⟨c, hc, hnode⟩)

/-! ## Loaded units -/

/-- The nodes of a unit that is loaded are numbered. -/
theorem SourceUnit.numbered_of_load? {text : String} {u : SourceUnit} (h : load? text = some u) :
    u.numbered = u := by
  obtain ⟨v, -, rfl⟩ := Option.map_eq_some_iff.mp h
  rw [← numbered_erase, erase_numbered, numbered_erase]

namespace Emission

/-! ## Built units -/

section built

variable {u : SourceUnit} {doc : UnitDoc} {table : FragmentTable}
  (hbuild : build u = .ok (doc, table))

include hbuild

/-- The names that the class of a built unit refers to are keys of its symbols. -/
theorem exists_symbol_of_mem_references {c : ClassDef} (hc : c ∈ u.classes.values) {name : String}
    (hname : name ∈ c.references) : ∃ s, c.symbols.find? name = some s :=
  OrderedMap.mem_keys_iff.mp ((exists_build_eq_ok_iff u).mp ⟨_, hbuild⟩ c hc name hname)

variable (hnumbered : u.numbered = u)

include hnumbered

/-- The table has the text of every node. -/
theorem get?_of_mem_nodes {node : Node} (h : node ∈ u.nodes) :
    table.get? node.id = node.translation? := by
  rw [(build_eq_ok hbuild).2, SourceUnit.translation?_of_mem]
  rwa [hnumbered]

/-- **The document of a class of the unit** is among those that are built, and is what the table
makes of the class. -/
theorem document_of_mem {c : ClassDef} (hc : c ∈ u.classes.values) :
    ModelDoc.direct c ∈ doc.models ∧ ModelDoc.build c table = .ok (ModelDoc.direct c) := by
  constructor
  · rw [(build_eq_ok hbuild).1]
    exact List.mem_map_of_mem (OrderedMap.mem_values_sortedBy.mpr hc)
  · have htext : ∀ node ∈ c.nodes, table.get? node.id = node.translation? :=
      fun node h => get?_of_mem_nodes hbuild hnumbered (SourceUnit.mem_nodes hc h)
    refine ModelDoc.build_eq_direct (fun s hs => ⟨?_, fun e he => ?_⟩) fun e he => ?_
    · exact htext (.symbol s)
        (ClassDef.mem_nodes_of_symbol hs (List.mem_append_right _ List.mem_cons_self))
    · exact htext (.content e) (ClassDef.mem_nodes_of_symbol hs
        (List.mem_append_left _ (Expression.mem_nodesAll e.content_mem_nodes he)))
    · exact htext (.equation e)
        (ClassDef.mem_nodes_of_equation he (List.mem_append_right _ List.mem_cons_self))

end built

/-! ## Declarations -/

/-- An identifier is declared with a vector: it is one of the members, and there is a line that
declares all of them. -/
def VectorDoc.Declares (v : VectorDoc) (ident : String) : Prop :=
  ident ∈ v.members ∧ ∃ line ∈ v.declaration, line.targets = ", ".intercalate v.members

/-- An identifier is declared in a model: with one of the vectors. -/
def ModelDoc.Declares (d : ModelDoc) (ident : String) : Prop := ∃ v ∈ d.vectors, v.Declares ident

/-- The members of a vector are declared. -/
theorem VectorDoc.declares_direct_iff (k : VectorKind) (symbols : List Symbol) (ident : String) :
    (direct k symbols).Declares ident ↔ ∃ s ∈ symbols, Identifier.sanitize s.name = ident := by
  rw [← List.mem_map]
  constructor
  · exact And.left
  · intro h
    refine ⟨h, _, if_neg ?_, rfl⟩
    rw [List.isEmpty_iff]
    exact List.ne_nil_of_mem h

/-- **A model declares the identifiers of the symbols of its class**, each under the name the symbol
itself carries, and nothing else. -/
theorem ModelDoc.declares_direct_iff (c : ClassDef) (ident : String) :
    (direct c).Declares ident ↔ ∃ s ∈ c.symbols.values, Identifier.sanitize s.name = ident := by
  constructor
  · rintro ⟨_, hv, h⟩
    obtain ⟨k, -, rfl⟩ := List.mem_map.mp hv
    obtain ⟨s, hs, hident⟩ := (VectorDoc.declares_direct_iff k _ ident).mp h
    exact ⟨s, k.mem_of_mem_select hs, hident⟩
  · rintro ⟨s, hs, hident⟩
    obtain ⟨k, hk⟩ := VectorKind.exists_mem_select hs
    exact ⟨_, List.mem_map_of_mem k.mem_all, (VectorDoc.declares_direct_iff k _ ident).mpr
      ⟨s, hk, hident⟩⟩

/-- **References of a loaded unit that is built.**  Each class has its document, with all six
vectors.  Every reference under one of its equations, values and start values is the name of a symbol
of the map and turns into the identifier of this name; the symbol under the name is declared with the
identifier of the name that it carries itself.  So what the reference turns into is declared if these
names are the same, and in general just if some symbol has this identifier. -/
theorem references_declared {text : String} {u : SourceUnit} {doc : UnitDoc} {table : FragmentTable}
    (hload : SourceUnit.load? text = some u) (hbuild : build u = .ok (doc, table)) :
    ∀ c ∈ u.classes.values, ∃ d ∈ doc.models,
      ModelDoc.build c table = .ok d ∧ d.vectors.map VectorDoc.kind = VectorKind.all ∧
      ∀ id name, .content (.reference id name) ∈ c.nodes →
        table.get? id = some (Identifier.sanitize name) ∧
        (∃ s, c.symbols.find? name = some s ∧ d.Declares (Identifier.sanitize s.name) ∧
          (s.name = name → d.Declares (Identifier.sanitize name))) ∧
        (d.Declares (Identifier.sanitize name) ↔
          ∃ s ∈ c.symbols.values, Identifier.sanitize s.name = Identifier.sanitize name) := by
  intro c hc
  have hnumbered := SourceUnit.numbered_of_load? hload
  obtain ⟨hmem, hdocument⟩ := document_of_mem hbuild hnumbered hc
  refine ⟨_, hmem, hdocument, rfl, fun id name hnode => ⟨?_, ?_, ?_⟩⟩
  · exact get?_of_mem_nodes hbuild hnumbered (SourceUnit.mem_nodes hc hnode)
  · obtain ⟨s, hs⟩ := exists_symbol_of_mem_references hbuild hc
      (ClassDef.mem_references_of_mem_nodes hnode)
    have hdeclared : (ModelDoc.direct c).Declares (Identifier.sanitize s.name) :=
      (ModelDoc.declares_direct_iff c _).mpr ⟨s, OrderedMap.mem_values_iff.mpr ⟨name, hs⟩, rfl⟩
    exact ⟨s, hs, hdeclared, fun hname => hname ▸ hdeclared⟩
  · exact ModelDoc.declares_direct_iff c _

/-! ### Names and keys -/

/-- A valve whose opening is bounded by a parameter that refers to a constant for its value. -/
def boundedValve : ClassDef where
  name := "Valve"
  symbols := .ofList [
    ("opening", { name := "opening", order := 0 }),
    ("opening.max", { name := "opening.max", order := 1, roles := .ofList [.parameter],
                      value := some (.reference 0 "scale") }),
    ("scale", { name := "scale", order := 2, roles := .ofList [.constant],
                value := some (.literal 0 (.integer 2)) })]
  equations := [⟨.reference 0 "opening", .reference 0 "opening.max", 0⟩]

/-- The valve alone. -/
def boundedUnit : SourceUnit := ⟨.ofList [("Valve", boundedValve)], 0⟩

/-- What the text of the valve refers to is declared, in a default value and in an equation. -/
theorem references_declared_bounded :
    ∃ doc table, SourceUnit.load? boundedUnit.text = some boundedUnit.numbered ∧
      build boundedUnit.numbered = .ok (doc, table) ∧ ∃ d ∈ doc.models,
        (table.get? 1 = some (Identifier.sanitize "scale") ∧
          d.Declares (Identifier.sanitize "scale")) ∧
        table.get? 6 = some (Identifier.sanitize "opening.max") ∧
          d.Declares (Identifier.sanitize "opening.max") := by
  have hload : SourceUnit.load? boundedUnit.text = some boundedUnit.numbered :=
    SourceUnit.load?_of_short (by decide +kernel) (by decide +kernel)
  have hfaults : boundedUnit.numbered.faults = [] := by decide +kernel
  obtain ⟨table, -, hbuild⟩ := build_eq boundedUnit.numbered
  rw [hfaults] at hbuild
  have hclass : (boundedValve.number 0).1 ∈ boundedUnit.numbered.classes.values :=
    List.mem_singleton.mpr rfl
  obtain ⟨d, hd, -, -, hreferences⟩ := references_declared hload hbuild _ hclass
  have hdeclared : ∀ {id : Nat} {name : String} {s : Symbol},
      (boundedValve.number 0).1.nodes[id]? = some (.content (.reference id name)) →
      (boundedValve.number 0).1.symbols.find? name = some s → s.name = name →
        table.get? id = some (Identifier.sanitize name) ∧ d.Declares (Identifier.sanitize name) := by
    intro id name s hnode hs hname
    obtain ⟨htext, ⟨s', hs', -, hdeclares⟩, -⟩ :=
      hreferences id name (List.mem_of_getElem? hnode)
    rw [hs] at hs'
    cases hs'
    exact ⟨htext, hdeclares hname⟩
  exact ⟨_, table, hload, hbuild, d, hd, hdeclared rfl rfl rfl, hdeclared rfl rfl rfl⟩

/-- A class whose only symbol stands under another name than it carries. -/
def misnamed : ClassDef where
  name := "M"
  symbols := .ofList [("a", { name := "b", order := 0 })]
  equations := [⟨.reference 0 "a", .literal 0 (.integer 1), 0⟩]

/-- The class alone. -/
def misnamedUnit : SourceUnit := ⟨.ofList [("M", misnamed)], 0⟩

/-- **A reference whose identifier is declared nowhere.**  The unit is loaded and built although the
symbol under the key `a` has the name `b`: on the left of the equation there is the identifier `a`,
while the document of the class declares only `b`. -/
theorem exists_undeclared_reference :
    ∃ doc table, SourceUnit.load? misnamedUnit.text = some misnamedUnit.numbered ∧
      build misnamedUnit.numbered = .ok (doc, table) ∧
      ∃ c ∈ misnamedUnit.numbered.classes.values, ∃ d ∈ doc.models,
        ModelDoc.build c table = .ok d ∧
        ∃ e ∈ c.equations, ∃ id, e.left = .reference id "a" ∧
          table.get? id = some (Identifier.sanitize "a") ∧
          ¬ d.Declares (Identifier.sanitize "a") := by
  have hload : SourceUnit.load? misnamedUnit.text = some misnamedUnit.numbered :=
    SourceUnit.load?_of_short (by decide +kernel) (by decide +kernel)
  have hnumbered := SourceUnit.numbered_of_load? hload
  have hfaults : misnamedUnit.numbered.faults = [] := by decide +kernel
  obtain ⟨table, -, hbuild⟩ := build_eq misnamedUnit.numbered
  rw [hfaults] at hbuild
  have hclass : (misnamed.number 0).1 ∈ misnamedUnit.numbered.classes.values :=
    List.mem_singleton.mpr rfl
  obtain ⟨hd, hdocument⟩ := document_of_mem hbuild hnumbered hclass
  have hnode : .content (.reference 1 "a") ∈ (misnamed.number 0).1.nodes :=
    List.mem_of_getElem? (i := 1) rfl
  refine ⟨_, table, hload, hbuild, _, hclass, _, hd, hdocument, _, List.mem_singleton.mpr rfl, 1,
    rfl, get?_of_mem_nodes hbuild hnumbered (SourceUnit.mem_nodes hclass hnode), ?_⟩
  rw [ModelDoc.declares_direct_iff]
  rintro ⟨s, hs, hident⟩
  cases List.mem_singleton.mp hs
  revert hident
  decide +kernel

end Emission

end FlatModel
