import FlatModel.Proofs.BuiltUnit
import FlatModel.Proofs.CanonicalForm
import FlatModel.Proofs.SymbolClasses
import FlatModel.Proofs.UnresolvedReferences

/-!
# What the order of insertion changes

Units that are equal up to order have one digest, and a module is generated for both or for none.
Symbols of a vector that share a place of declaration stand in it in the order in which they were
added, though, so the modules of such units may differ.

* `ClassDef.IsUntied` — no two symbols of a class that may meet in a vector share a place.
* `ClassDef.EqualUpToOrder.direct_eq` — equal classes without ties have one document.
* `generate_eq_of_equalUpToOrder` — what units that are equal up to order have in common.
* `generate_siblings_ne` — two such units of one digest with different modules.
-/

namespace FlatModel

open Emission

/-! ## Symbols that meet -/

/-- Two symbols may meet in a vector: they share a role, or neither has one. -/
def Symbol.Meets (s t : Symbol) : Prop :=
  (∃ r, s.is r = true ∧ t.is r = true) ∨ (s.roles.isEmpty = true ∧ t.roles.isEmpty = true)

/-- Whether two symbols meet is found by trying all roles. -/
instance (s t : Symbol) : Decidable (s.Meets t) :=
  decidable_of_iff ((∃ r ∈ Role.all, s.is r = true ∧ t.is r = true) ∨
    (s.roles.isEmpty = true ∧ t.roles.isEmpty = true)) <| by
  have hall : ∀ r : Role, r ∈ Role.all := by
    intro r
    cases r <;> decide
  simp [Symbol.Meets, hall]

/-- No two symbols of the class that may meet in a vector share a place of declaration. -/
def ClassDef.IsUntied (c : ClassDef) : Prop :=
  ∀ s ∈ c.symbols.values, ∀ t ∈ c.symbols.values, s.order = t.order → s.Meets t → s.name = t.name

instance (c : ClassDef) : Decidable c.IsUntied :=
  inferInstanceAs (Decidable (∀ s ∈ c.symbols.values, ∀ t ∈ c.symbols.values, _ → _ → _))

/-- The vectors of symbols without ties do not depend on the order the symbols come in. -/
theorem SymbolGroups.select_eq {symbols symbols' : List Symbol} (hperm : symbols.Perm symbols')
    (happart : ∀ s ∈ symbols, ∀ t ∈ symbols, s.order = t.order → s.Meets t → s = t)
    (k : VectorKind) : k.select (ofList symbols) = k.select (ofList symbols') := by
  have hplaying : ∀ r : Role, (inOrder symbols).filter (fun s => s.is r) =
      (inOrder symbols').filter fun s => s.is r := by
    intro r
    apply filter_inOrder_eq hperm
    intro s hs t ht hsr htr horder
    exact happart s hs t ht horder (.inl ⟨r, hsr, htr⟩)
  have hplain : (inOrder symbols).filter (fun s => s.roles.isEmpty) =
      (inOrder symbols').filter fun s => s.roles.isEmpty := by
    apply filter_inOrder_eq hperm
    intro s hs t ht hse hte horder
    exact happart s hs t ht horder (.inr ⟨hse, hte⟩)
  cases k with
  | states => exact hplaying .state
  | constants => exact hplaying .constant
  | parameters => exact hplaying .parameter
  | inputs => exact hplaying .input
  | outputs => exact hplaying .output
  | algebraics => exact congrArg₂ (· ++ ·) hplain (congrArg (List.filter _) (hplaying .output))

/-! ## Equal classes -/

namespace ClassDef

/-- Without numbers, two symbols of a class under their own names that share a place and may meet
are one symbol. -/
theorem IsUntied.eq_of_order {c : ClassDef} (huntied : c.IsUntied) (hkeyed : c.IsKeyed) :
    ∀ s ∈ c.erase.symbols.values, ∀ t ∈ c.erase.symbols.values, s.order = t.order → s.Meets t →
      s = t := by
  simp only [OrderedMap.values, erase, OrderedMap.mapValues, List.map_map, List.forall_mem_map]
  intro p hp q hq horder hmeets
  have hname : p.2.name = q.2.name := huntied p.2 (List.mem_map.mpr ⟨p, hp, rfl⟩) q.2
    (List.mem_map.mpr ⟨q, hq, rfl⟩) horder hmeets
  have hpq : p = q := List.inj_on_of_nodup_map c.symbols.nodup hp hq
    ((hkeyed p hp).trans (hname.trans (hkeyed q hq).symm))
  rw [hpq]

namespace EqualUpToOrder

variable {c d : ClassDef}

theorem symm (h : c.EqualUpToOrder d) : d.EqualUpToOrder c :=
  ⟨h.name.symm, fun key => (h.symbols key).symm, h.equations.symm⟩

/-- Equal classes have the same symbols without numbers. -/
theorem perm_entries (h : c.EqualUpToOrder d) :
    c.erase.symbols.entries.Perm d.erase.symbols.entries := by
  apply OrderedMap.perm_of_find?
  intro key
  rw [erase, erase, OrderedMap.find?_mapValues, OrderedMap.find?_mapValues, h.symbols]

/-- Equal classes have symbols of the same names. -/
theorem mem_keys_iff (h : c.EqualUpToOrder d) {name : String} :
    name ∈ c.symbols.keys ↔ name ∈ d.symbols.keys := by
  rw [← OrderedMap.keys_mapValues Symbol.erase, ← OrderedMap.keys_mapValues Symbol.erase d.symbols]
  exact (h.perm_entries.map Prod.fst).mem_iff

/-- Equal classes refer to the same names. -/
theorem mem_references_iff (h : c.EqualUpToOrder d) {name : String} :
    name ∈ c.references ↔ name ∈ d.references := by
  have hequations : c.erase.equations = d.erase.equations := h.equations
  have hperm : c.erase.references.Perm d.erase.references := by
    rw [references, references, hequations]
    exact ((h.perm_entries.map Prod.snd).flatMap_right _).append_right _
  rw [← c.references_erase, ← d.references_erase]
  exact hperm.mem_iff

/-- **Equal classes without ties have one document.** -/
theorem direct_eq (h : c.EqualUpToOrder d) (hkeyed : c.IsKeyed) (huntied : c.IsUntied) :
    ModelDoc.direct c = ModelDoc.direct d := by
  have hselect : ∀ k : VectorKind, k.select c.erase.groups = k.select d.erase.groups :=
    SymbolGroups.select_eq (h.perm_entries.map Prod.snd) (huntied.eq_of_order hkeyed)
  have hequations : c.erase.equations = d.erase.equations := h.equations
  rw [← ModelDoc.direct_erase, ← ModelDoc.direct_erase d, ModelDoc.direct, ModelDoc.direct,
    hequations]
  simp only [hselect]
  exact congrArg (ModelDoc.mk · _ _ _) h.name

/-- If all references of one of two equal classes name symbols, so do those of the other. -/
theorem resolves (h : c.EqualUpToOrder d) (hc : ∀ name ∈ c.references, name ∈ c.symbols.keys) :
    ∀ name ∈ d.references, name ∈ d.symbols.keys := by
  intro name hname
  rw [← h.mem_keys_iff]
  exact hc name (h.mem_references_iff.mpr hname)

end EqualUpToOrder

/-- The canonical form of a class does not see its numbers. -/
theorem toJson_canonical_number (c : ClassDef) (n : Nat) :
    (c.number n).1.canonical.toJson = c.canonical.toJson := by
  rw [← toJson_erase, erase_canonical, c.erase_number, ← erase_canonical, toJson_erase]

end ClassDef

/-! ## Equal units -/

namespace SourceUnit

/-- **The digest does not depend on numbers.** -/
theorem digest_numbered (u : SourceUnit) : u.numbered.digest = u.digest := by
  have hclasses : u.numbered.classes.mapValues (fun c => c.canonical.toJson) =
      u.classes.mapValues fun c => c.canonical.toJson :=
    OrderedMap.mapValues_thread ClassDef.toJson_canonical_number u.classes 0
  have hjson : u.numbered.canonical.toJson = u.canonical.toJson := by
    rw [toJson_canonical, toJson_canonical, hclasses]
  rw [digest, digest, canonicalText, canonicalText, text, text, hjson]

namespace EqualUpToOrder

variable {u v : SourceUnit}

theorem symm (h : u.EqualUpToOrder v) : v.EqualUpToOrder u := by
  intro key
  have hkey := h key
  generalize u.classes.find? key = c at hkey ⊢
  generalize v.classes.find? key = d at hkey ⊢
  cases hkey with
  | none => exact .none
  | some hcd => exact .some hcd.symm

/-- Under the name of a class of one unit stands an equal class of the other. -/
theorem exists_find? (h : u.EqualUpToOrder v) {key : String} {c : ClassDef}
    (hc : u.classes.find? key = some c) :
    ∃ d, v.classes.find? key = some d ∧ c.EqualUpToOrder d := by
  have hkey := h key
  rw [hc] at hkey
  rcases hd : v.classes.find? key with _ | d
  · rw [hd] at hkey
    cases hkey
  · rw [hd, Option.rel_some_some] at hkey
    exact ⟨d, rfl, hkey⟩

/-- A name of a class of one unit is a name of a class of the other. -/
theorem mem_keys (h : u.EqualUpToOrder v) {key : String} (hkey : key ∈ u.classes.keys) :
    key ∈ v.classes.keys := by
  obtain ⟨c, hc⟩ := OrderedMap.mem_keys_iff.mp hkey
  obtain ⟨d, hd, -⟩ := h.exists_find? hc
  exact OrderedMap.mem_keys_iff.mpr ⟨d, hd⟩

/-- If all references of one unit name symbols, so do those of the other. -/
theorem resolves (h : u.EqualUpToOrder v) (hu : u.Resolves) : v.Resolves := by
  intro d hd
  obtain ⟨key, hkey⟩ := OrderedMap.mem_values_iff.mp hd
  obtain ⟨c, hc, hdc⟩ := h.symm.exists_find? hkey
  exact hdc.symm.resolves (hu c (OrderedMap.mem_values_iff.mpr ⟨key, hc⟩))

/-- Equal units without ties have one list of documents. -/
theorem directAll_eq (h : u.EqualUpToOrder v) (hkeyed : u.IsKeyed)
    (huntied : ∀ c ∈ u.classes.values, c.IsUntied) :
    ModelDoc.directAll u = ModelDoc.directAll v := by
  have hfind : ∀ key, (u.classes.mapValues ModelDoc.direct).find? key =
      (v.classes.mapValues ModelDoc.direct).find? key := by
    intro key
    rw [OrderedMap.find?_mapValues, OrderedMap.find?_mapValues]
    refine h.map_find?_eq (fun key c d hc hcd => ?_) key
    exact hcd.direct_eq (hkeyed _ (OrderedMap.find?_eq_some_iff.mp hc)).2
      (huntied c (OrderedMap.mem_values_iff.mpr ⟨key, hc⟩))
  have hsorted := OrderedMap.sortedBy_name_eq_iff.mpr hfind
  have hvalues := fun w : SourceUnit => OrderedMap.values_sortedBy_mapValues
    (fun p q => decide (p ≤ q)) ModelDoc.direct w.classes
  rw [ModelDoc.directAll, ModelDoc.directAll, ← hvalues u, ← hvalues v, hsorted]

end EqualUpToOrder

end SourceUnit

namespace Emission

/-- The module of a unit, if there is one, is that of the direct documents. -/
theorem generate_eq_ok {u : SourceUnit} {model text : String} (h : generate u model = .ok text) :
    text = unitSource ⟨u.digest, ModelDoc.directAll u⟩ := by
  unfold generate at h
  split at h
  · obtain ⟨⟨doc, table⟩, hbuild, htext⟩ := bind_eq_ok.mp h
    obtain ⟨rfl, -⟩ := build_eq_ok hbuild
    rw [← u.digest_numbered]
    exact (Except.ok.inj htext).symm
  · cases h

/-- A module is generated for both of two equal units or for none. -/
theorem exists_generate_of_equalUpToOrder {u v : SourceUnit} (h : u.EqualUpToOrder v)
    {model : String} (hu : ∃ text, generate u model = .ok text) :
    ∃ text, generate v model = .ok text := by
  rw [exists_generate_eq_ok_iff] at hu ⊢
  exact ⟨h.mem_keys hu.1, h.resolves hu.2⟩

/-- **What the order of insertion does not change.**  Two units that differ only in the order in
which classes and symbols were added have one digest, and a module is generated for both or for
none; it is the same module if no two symbols that may meet in a vector share a place. -/
theorem generate_eq_of_equalUpToOrder {u v : SourceUnit} (hkeyed : u.IsKeyed)
    (h : u.EqualUpToOrder v) : u.digest = v.digest ∧
      (∀ model, (∃ text, generate u model = .ok text) ↔ ∃ text, generate v model = .ok text) ∧
      ((∀ c ∈ u.classes.values, c.IsUntied) → ∀ model text,
        generate u model = .ok text ↔ generate v model = .ok text) := by
  have hdigest : u.digest = v.digest := by
    rw [SourceUnit.digest, SourceUnit.digest, h.canonicalText_eq hkeyed]
  have hboth : ∀ model, (∃ text, generate u model = .ok text) ↔
      ∃ text, generate v model = .ok text := fun model =>
    ⟨exists_generate_of_equalUpToOrder h, exists_generate_of_equalUpToOrder h.symm⟩
  refine ⟨hdigest, hboth, ?_⟩
  intro huntied model text
  have hdocs := h.directAll_eq hkeyed huntied
  constructor
  · intro hu
    obtain ⟨text', hv⟩ := (hboth model).mp ⟨text, hu⟩
    rw [hv, generate_eq_ok hv, generate_eq_ok hu, hdigest, hdocs]
  · intro hv
    obtain ⟨text', hu⟩ := (hboth model).mpr ⟨text, hv⟩
    rw [hu, generate_eq_ok hv, generate_eq_ok hu, hdigest, hdocs]

/-- A state and a parameter that share a place never meet in a vector, so their module does not
depend on the order in which they were added. -/
theorem generate_forwards :
    (SourceUnit.forwards (.real 1.0)).digest = (SourceUnit.backwards (.real 1.0)).digest ∧
      ∃ text, generate (.forwards (.real 1.0)) "Tank" = .ok text ∧
        generate (.backwards (.real 1.0)) "Tank" = .ok text := by
  have huntied : ∀ c ∈ (SourceUnit.forwards (.real 1.0)).classes.values, c.IsUntied := by
    decide +kernel
  have htext : ∃ text, generate (.forwards (.real 1.0)) "Tank" = .ok text := by
    rw [exists_generate_eq_ok_iff]
    unfold SourceUnit.Resolves
    decide +kernel
  obtain ⟨hdigest, -, hsame⟩ := generate_eq_of_equalUpToOrder (SourceUnit.forwards_isKeyed _)
    (SourceUnit.forwards_equalUpToOrder (.real 1.0))
  obtain ⟨text, htext⟩ := htext
  exact ⟨hdigest, text, htext, (hsame huntied "Tank" text).mp htext⟩

/-! ### A tie -/

/-- A symbol without a role in the first place. -/
def plain (name : String) : Symbol where
  name := name
  order := 0

/-- A class with two such symbols, added in the given order. -/
def siblings (first second : String) : ClassDef where
  name := "M"
  symbols := .ofList [(first, plain first), (second, plain second)]

/-- A unit with that class only. -/
def siblingsOnly (first second : String) : SourceUnit := ⟨.ofList [("M", siblings first second)], 0⟩

/-- The document of the class: both symbols are variables, in the order in which they were added. -/
theorem direct_siblings {first second : String} (h : first ≠ second) :
    ModelDoc.directAll (siblingsOnly first second) = [⟨"M", VectorKind.all.map fun k =>
      VectorDoc.direct k (k.select ⟨[], [], [], [], [], [plain first, plain second]⟩), [], []⟩] := by
  have hvalues : (siblings first second).symbols.values = [plain first, plain second] := by
    simp [siblings, OrderedMap.values, OrderedMap.ofList, OrderedMap.insert, OrderedMap.empty,
      OrderedMap.insertEntry, h]
  -- the sort is stable, so symbols in one place stay as they were added
  have hsorted : SymbolGroups.inOrder [plain first, plain second] = [plain first, plain second] := by
    apply SymbolGroups.inOrder_eq_self
    simp [plain]
  have hgroups : (siblings first second).groups =
      ⟨[], [], [], [], [], [plain first, plain second]⟩ := by
    rw [ClassDef.groups, hvalues, SymbolGroups.ofList, hsorted]
    rfl
  have hclasses : (siblingsOnly first second).classes.sortedBy (fun p q => p.1 ≤ q.1) =
      (siblingsOnly first second).classes :=
    OrderedMap.ext_entries (List.mergeSort_singleton _)
  have hdirect : ModelDoc.direct (siblings first second) = ⟨"M", VectorKind.all.map fun k =>
      VectorDoc.direct k (k.select ⟨[], [], [], [], [], [plain first, plain second]⟩), [], []⟩ := by
    rw [ModelDoc.direct, hgroups]
    rfl
  rw [ModelDoc.directAll, hclasses, ← hdirect]
  rfl

/-- Modules of one digest are told apart by the texts of their models. -/
theorem unitSource_ne {digest : String} {models models' : List ModelDoc}
    (h : String.join (models.map modelSource) ≠ String.join (models'.map modelSource)) :
    unitSource ⟨digest, models⟩ ≠ unitSource ⟨digest, models'⟩ := by
  rw [unitSource, unitSource]
  intro heq
  exact h ((String.append_right_inj _).mp heq)

/-- The two orders of the symbols are equal up to order. -/
theorem siblingsOnly_equalUpToOrder {first second : String} (h : first ≠ second) :
    (siblingsOnly first second).EqualUpToOrder (siblingsOnly second first) := by
  have hclass : (siblings first second).EqualUpToOrder (siblings second first) := by
    refine ⟨rfl, fun key => congrArg _ (OrderedMap.find?_eq_of_perm ?_ key), rfl⟩
    simp only [siblings, OrderedMap.ofList, OrderedMap.insert, OrderedMap.empty, List.foldl_cons,
      List.foldl_nil, OrderedMap.insertEntry, if_neg h, if_neg h.symm]
    exact .swap _ _ _
  have hfirst : (siblingsOnly first second).classes.find? "M" = some (siblings first second) := rfl
  have hsecond : (siblingsOnly second first).classes.find? "M" = some (siblings second first) := rfl
  refine SourceUnit.equalUpToOrder_of_keys (fun _ => .rfl) ?_
  intro key c d hc hd
  have hkey : key ∈ ["M"] := OrderedMap.mem_keys_iff.mpr ⟨c, hc⟩
  rw [List.mem_singleton.mp hkey] at hc hd
  cases hfirst.symm.trans hc
  cases hsecond.symm.trans hd
  exact hclass

/-- **The order of insertion reaches the module.**  Two variables in one place give units that are
equal up to order and have one digest, but the modules generated for them differ. -/
theorem generate_siblings_ne :
    (siblingsOnly "a" "b").IsKeyed ∧ (siblingsOnly "b" "a").IsKeyed ∧
      (siblingsOnly "a" "b").EqualUpToOrder (siblingsOnly "b" "a") ∧
      (siblingsOnly "a" "b").digest = (siblingsOnly "b" "a").digest ∧
      ∃ text text', generate (siblingsOnly "a" "b") "M" = .ok text ∧
        generate (siblingsOnly "b" "a") "M" = .ok text' ∧ text ≠ text' := by
  have hkeyed : (siblingsOnly "a" "b").IsKeyed := by
    unfold SourceUnit.IsKeyed ClassDef.IsKeyed
    decide +kernel
  have hkeyed' : (siblingsOnly "b" "a").IsKeyed := by
    unfold SourceUnit.IsKeyed ClassDef.IsKeyed
    decide +kernel
  have hequal : (siblingsOnly "a" "b").EqualUpToOrder (siblingsOnly "b" "a") :=
    siblingsOnly_equalUpToOrder (by decide)
  have hdigest : (siblingsOnly "a" "b").digest = (siblingsOnly "b" "a").digest := by
    rw [SourceUnit.digest, SourceUnit.digest, hequal.canonicalText_eq hkeyed]
  have hu : ∃ text, generate (siblingsOnly "a" "b") "M" = .ok text := by
    rw [exists_generate_eq_ok_iff]
    unfold SourceUnit.Resolves
    decide +kernel
  obtain ⟨text, htext⟩ := hu
  obtain ⟨text', htext'⟩ := exists_generate_of_equalUpToOrder hequal ⟨text, htext⟩
  refine ⟨hkeyed, hkeyed', hequal, hdigest, text, text', htext, htext', ?_⟩
  rw [generate_eq_ok htext, generate_eq_ok htext', hdigest, direct_siblings (by decide),
    direct_siblings (by decide)]
  apply unitSource_ne
  decide +kernel

end Emission

end FlatModel
