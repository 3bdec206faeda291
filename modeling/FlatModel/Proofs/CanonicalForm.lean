import FlatModel.Tree.Digest
import FlatModel.Proofs.ModelOfClass
import FlatModel.Proofs.WrittenTree

/-!
# The canonical form of a unit

The text that is digested tells two units apart unless they differ only in the order in which
classes and symbols were added, and in the numbers of their nodes.

* `ClassDef.EqualUpToOrder`, `SourceUnit.EqualUpToOrder` — equal but for order and numbers.
* `Symbol.precedes_trans`, `Symbol.precedes_total`, `Symbol.name_eq_of_precedes` — the order of
  symbols, which tells symbols of different names apart.
* `ClassDef.EqualUpToOrder.toJson_canonical_eq`, `ClassDef.equalUpToOrder_of_toJson_canonical` — what
  the canonical form of a class says about the class.
* `SourceUnit.canonicalText_eq_iff` — what the digested text says about the unit.
-/

namespace FlatModel

/-! ## Equality up to order -/

/-- Every class of the unit stands under its own name, and so do the symbols of every class. -/
def SourceUnit.IsKeyed (u : SourceUnit) : Prop :=
  ∀ p ∈ u.classes.entries, p.1 = p.2.name ∧ p.2.IsKeyed

/-- Two classes are equal but for the order of their symbols and the numbers of nodes. -/
structure ClassDef.EqualUpToOrder (c d : ClassDef) : Prop where
  /-- The names are equal. -/
  name : c.name = d.name
  /-- Under every name stands the same symbol. -/
  symbols : ∀ key, (c.symbols.find? key).map Symbol.erase = (d.symbols.find? key).map Symbol.erase
  /-- The equations are equal and in the same order. -/
  equations : c.equations.map Equation.erase = d.equations.map Equation.erase

/-- Two units are equal but for the order of their classes, the order of the symbols in each and
the numbers of nodes: under every name stand equal classes, or none. -/
def SourceUnit.EqualUpToOrder (u v : SourceUnit) : Prop :=
  ∀ key, Option.Rel ClassDef.EqualUpToOrder (u.classes.find? key) (v.classes.find? key)

/-! ## The order of symbols -/

namespace Symbol

variable {a b c : Symbol}

/-- A symbol precedes one with a later place, and of those in its place one with a later name. -/
theorem precedes_iff : a.precedes b = true ↔
    a.order < b.order ∨ a.order = b.order ∧ a.name ≤ b.name := by
  simp [precedes]

theorem precedes_trans (hab : a.precedes b = true) (hbc : b.precedes c = true) :
    a.precedes c = true := by
  rw [precedes_iff] at hab hbc ⊢
  rcases hab with hab | ⟨hab, hab'⟩
  · rcases hbc with hbc | ⟨hbc, -⟩
    · exact .inl (UInt64.lt_trans hab hbc)
    · exact .inl (hbc ▸ hab)
  · rcases hbc with hbc | ⟨hbc, hbc'⟩
    · exact .inl (hab ▸ hbc)
    · exact .inr ⟨hab.trans hbc, String.le_trans hab' hbc'⟩

theorem precedes_total (a b : Symbol) : (a.precedes b || b.precedes a) = true := by
  rw [Bool.or_eq_true, precedes_iff, precedes_iff]
  rcases Std.lt_trichotomy a.order b.order with h | h | h
  · exact .inl (.inl h)
  · rcases String.le_total a.name b.name with hname | hname
    · exact .inl (.inr ⟨h, hname⟩)
    · exact .inr (.inr ⟨h.symm, hname⟩)
  · exact .inr (.inl h)

/-- Symbols that precede each other have one name. -/
theorem name_eq_of_precedes (hab : a.precedes b = true) (hba : b.precedes a = true) :
    a.name = b.name := by
  rw [precedes_iff] at hab hba
  rcases hab with hab | ⟨hab, hab'⟩
  · rcases hba with hba | ⟨hba, -⟩
    · exact absurd hab (UInt64.lt_asymm hba)
    · exact absurd hab (hba ▸ UInt64.lt_irrefl _)
  · rcases hba with hba | ⟨-, hba'⟩
    · exact absurd hba (hab ▸ UInt64.lt_irrefl _)
    · exact String.le_antisymm hab' hba'

end Symbol

/-! ## Canonical classes -/

namespace ClassDef

/-- The canonical form does not see numbers. -/
theorem erase_canonical (c : ClassDef) : c.canonical.erase = c.erase.canonical := by
  have hsort : (c.symbols.sortedBy fun p q => p.2.precedes q.2).mapValues Symbol.erase =
      (c.symbols.mapValues Symbol.erase).sortedBy fun p q => p.2.precedes q.2 := by
    apply OrderedMap.mapValues_sortedBy
    exact fun p q => rfl
  show ClassDef.mk _ _ _ _ = ClassDef.mk _ _ _ _
  rw [ClassDef.mk.injEq]
  exact ⟨rfl, hsort, rfl, rfl⟩

/-- The canonical form has the real literals of the class. -/
theorem mem_reals_canonical {c : ClassDef} {x : Float} : x ∈ c.canonical.reals ↔ x ∈ c.reals := by
  simp only [reals, canonical, List.mem_append, List.mem_flatMap, OrderedMap.mem_values_sortedBy]

/-- The symbols of a class under their own names are told apart by their order. -/
theorem IsKeyed.sortedBy_eq {c d : ClassDef} (hc : c.IsKeyed)
    (h : ∀ key, (c.symbols.find? key).map Symbol.erase = (d.symbols.find? key).map Symbol.erase) :
    c.erase.canonical.symbols = d.erase.canonical.symbols := by
  apply OrderedMap.sortedBy_eq_of_find?
  · exact fun p q r => Symbol.precedes_trans
  · exact fun p q => Symbol.precedes_total p.2 q.2
  · -- symbols that precede each other have one name, hence one key
    intro p hp q hq hpq hqp
    have hname := Symbol.name_eq_of_precedes hpq hqp
    refine List.inj_on_of_nodup_map c.erase.symbols.nodup hp hq ?_
    obtain ⟨p', hp', rfl⟩ := List.mem_map.mp hp
    obtain ⟨q', hq', rfl⟩ := List.mem_map.mp hq
    exact (hc p' hp').trans (hname.trans (hc q' hq').symm)
  · intro key
    rw [erase, erase, OrderedMap.find?_mapValues, OrderedMap.find?_mapValues, h]

/-- Equal classes have one canonical form. -/
theorem EqualUpToOrder.toJson_canonical_eq {c d : ClassDef} (h : c.EqualUpToOrder d)
    (hkeyed : c.IsKeyed) : c.canonical.toJson = d.canonical.toJson := by
  have hsymbols := hkeyed.sortedBy_eq h.symbols
  have herase : c.erase.canonical = d.erase.canonical := by
    show ClassDef.mk _ _ _ _ = ClassDef.mk _ _ _ _
    rw [ClassDef.mk.injEq]
    exact ⟨h.name, hsymbols, h.equations, rfl⟩
  rw [← toJson_erase, ← d.canonical.toJson_erase, erase_canonical, erase_canonical, herase]

/-- Classes of one canonical form are equal. -/
theorem equalUpToOrder_of_toJson_canonical {c d : ClassDef} (hc : ∀ x ∈ c.reals, x.isFinite = true)
    (hd : ∀ x ∈ d.reals, x.isFinite = true) (h : c.canonical.toJson = d.canonical.toJson) :
    c.EqualUpToOrder d := by
  have herase : c.canonical.erase = d.canonical.erase :=
    erase_eq_of_toJson (fun x hx => hc x (mem_reals_canonical.mp hx))
      (fun x hx => hd x (mem_reals_canonical.mp hx)) h
  obtain ⟨hname, hsymbols, hequations, -⟩ := ClassDef.mk.inj herase
  refine ⟨hname, ?_, hequations⟩
  intro key
  have hfind := congrArg (fun m => m.find? key) hsymbols
  simpa only [canonical, OrderedMap.find?_mapValues, OrderedMap.find?_sortedBy] using hfind

end ClassDef

/-! ## Canonical units -/

namespace SourceUnit

/-- The JSON of the canonical form: that of the canonical classes in order of their names. -/
theorem toJson_canonical (u : SourceUnit) :
    u.canonical.toJson = .record [("classes", .record
      ((u.classes.mapValues fun c => c.canonical.toJson).sortedBy fun p q => p.1 ≤ q.1).entries)] := by
  have hsort : (u.classes.sortedBy fun p q => p.1 ≤ q.1).mapValues (fun c => c.canonical.toJson) =
      (u.classes.mapValues fun c => c.canonical.toJson).sortedBy fun p q => p.1 ≤ q.1 := by
    apply OrderedMap.mapValues_sortedBy
    exact fun p q => rfl
  rw [← hsort, toJson, canonical, OrderedMap.mapValues, OrderedMap.mapValues, List.map_map]
  rfl

/-- Two units have one canonical form if the canonical forms of their classes are those under the
same names. -/
theorem toJson_canonical_eq_iff {u v : SourceUnit} :
    u.canonical.toJson = v.canonical.toJson ↔
      ∀ key, (u.classes.find? key).map (fun c => c.canonical.toJson) =
        (v.classes.find? key).map fun c => c.canonical.toJson := by
  simp only [toJson_canonical, Json.record_inj, List.cons.injEq, Prod.mk.injEq, true_and, and_true,
    ← OrderedMap.find?_mapValues, ← OrderedMap.sortedBy_name_eq_iff]
  exact ⟨fun h => OrderedMap.ext_entries h, fun h => congrArg _ h⟩

section equal

variable {u v : SourceUnit} {γ : Type} {f : ClassDef → γ}

/-- In equal units, what equal classes have in common stands under the same names. -/
theorem EqualUpToOrder.map_find?_eq (h : u.EqualUpToOrder v)
    (hf : ∀ key c d, u.classes.find? key = some c → c.EqualUpToOrder d → f c = f d) (key : String) :
    (u.classes.find? key).map f = (v.classes.find? key).map f := by
  have hkey := h key
  generalize hu : u.classes.find? key = c at hkey ⊢
  generalize v.classes.find? key = d at hkey ⊢
  cases hkey with
  | none => rfl
  | some hcd => exact congrArg some (hf key _ _ hu hcd)

/-- Units are equal if they have classes of the same names, and equal ones under every name. -/
theorem equalUpToOrder_of_keys (hkeys : ∀ key, key ∈ u.classes.keys ↔ key ∈ v.classes.keys)
    (h : ∀ key c d, u.classes.find? key = some c → v.classes.find? key = some d →
      c.EqualUpToOrder d) : u.EqualUpToOrder v := by
  intro key
  have hmem := hkeys key
  rw [OrderedMap.mem_keys_iff, OrderedMap.mem_keys_iff] at hmem
  rcases hu : u.classes.find? key with _ | c
  · rcases hv : v.classes.find? key with _ | d
    · exact .none
    · obtain ⟨c, hc⟩ := hmem.mpr ⟨d, hv⟩
      rw [hu] at hc
      cases hc
  · obtain ⟨d, hd⟩ := hmem.mp ⟨c, hu⟩
    rw [hd]
    exact .some (h key c d hu hd)

/-- Units are equal if what stands under the same names is found in equal classes only. -/
theorem equalUpToOrder_of_map_find?
    (h : ∀ key, (u.classes.find? key).map f = (v.classes.find? key).map f)
    (hf : ∀ key c d, u.classes.find? key = some c → v.classes.find? key = some d → f c = f d →
      c.EqualUpToOrder d) : u.EqualUpToOrder v := by
  apply equalUpToOrder_of_keys
  · intro key
    rw [← OrderedMap.keys_mapValues f, ← OrderedMap.keys_mapValues f v.classes,
      OrderedMap.mem_keys_iff, OrderedMap.mem_keys_iff, OrderedMap.find?_mapValues,
      OrderedMap.find?_mapValues, h key]
  · intro key c d hc hd
    have hkey := h key
    rw [hc, hd] at hkey
    exact hf key c d hc hd (Option.some.inj hkey)

/-- Equal units have one canonical text. -/
theorem EqualUpToOrder.canonicalText_eq (h : u.EqualUpToOrder v) (hkeyed : u.IsKeyed) :
    u.canonicalText = v.canonicalText := by
  refine congrArg Json.compact (toJson_canonical_eq_iff.mpr (h.map_find?_eq ?_))
  intro key c d hc hcd
  exact hcd.toJson_canonical_eq (hkeyed _ (OrderedMap.find?_eq_some_iff.mp hc)).2

end equal

/-- **The digested text identifies the unit up to order.**  Two units whose real literals are finite,
the classes and symbols of one of them under their own names, have the same canonical text just if
they differ at most in the order in which classes and symbols were added and in the numbers of
nodes. -/
theorem canonicalText_eq_iff {u v : SourceUnit} (hkeyed : u.IsKeyed)
    (hu : ∀ x ∈ u.reals, x.isFinite = true) (hv : ∀ x ∈ v.reals, x.isFinite = true) :
    u.canonicalText = v.canonicalText ↔ u.EqualUpToOrder v := by
  constructor
  · intro h
    have hjson : u.canonical.toJson = v.canonical.toJson :=
      Json.compact_injective u.canonical.isText_toJson v.canonical.isText_toJson h
    rw [reals, List.forall_mem_flatMap] at hu hv
    apply equalUpToOrder_of_map_find? (toJson_canonical_eq_iff.mp hjson)
    intro key c d hc hd
    exact ClassDef.equalUpToOrder_of_toJson_canonical
      (hu c (OrderedMap.mem_values_iff.mpr ⟨key, hc⟩))
      (hv d (OrderedMap.mem_values_iff.mpr ⟨key, hd⟩))
  · intro h
    exact h.canonicalText_eq hkeyed

/-! ### Two orders -/

/-- A parameter with a value; every node has the given number. -/
def gain (id : Nat) (value : Literal) : Symbol where
  name := "gain"
  order := 0
  roles := .ofList [.parameter]
  value := some (.literal id value)
  id := id

/-- A state in the place of the parameter. -/
def level (id : Nat) : Symbol where
  name := "level"
  order := 0
  roles := .ofList [.state]
  id := id

/-- A class with the parameter before the state, then an empty class. -/
def forwards (value : Literal) : SourceUnit := ⟨.ofList
  [("Tank", ⟨"Tank", .ofList [("gain", gain 1 value), ("level", level 1)], [], 1⟩),
    ("Pump", .new "Pump")], 1⟩

/-- The same classes and symbols in the opposite order, under other numbers. -/
def backwards (value : Literal) : SourceUnit := ⟨.ofList [("Pump", .new "Pump"),
  ("Tank", ⟨"Tank", .ofList [("level", level 2), ("gain", gain 2 value)], [], 2⟩)], 2⟩

/-- The classes and symbols stand under their own names. -/
theorem forwards_isKeyed (value : Literal) : (forwards value).IsKeyed := by
  intro p hp
  rcases List.mem_cons.mp hp with rfl | hp
  · refine ⟨rfl, fun q hq => ?_⟩
    rcases List.mem_cons.mp hq with rfl | hq
    · rfl
    · cases List.mem_singleton.mp hq
      rfl
  · cases List.mem_singleton.mp hp
    exact ⟨rfl, nofun⟩

/-- The two orders of one unit are equal up to order. -/
theorem forwards_equalUpToOrder (value : Literal) :
    (forwards value).EqualUpToOrder (backwards value) := by
  have htank : (forwards value).classes.find? "Tank" =
      some ⟨"Tank", .ofList [("gain", gain 1 value), ("level", level 1)], [], 1⟩ := rfl
  have htank' : (backwards value).classes.find? "Tank" =
      some ⟨"Tank", .ofList [("level", level 2), ("gain", gain 2 value)], [], 2⟩ := rfl
  have hpump : (forwards value).classes.find? "Pump" = some (.new "Pump") := rfl
  have hpump' : (backwards value).classes.find? "Pump" = some (.new "Pump") := rfl
  apply equalUpToOrder_of_keys
  · have hkeys : (forwards value).classes.keys.Perm (backwards value).classes.keys :=
      .swap "Pump" "Tank" []
    exact fun key => hkeys.mem_iff
  · intro key c d hc hd
    have hkey : key ∈ ["Tank", "Pump"] := OrderedMap.mem_keys_iff.mpr ⟨c, hc⟩
    simp only [List.mem_cons, List.not_mem_nil, or_false] at hkey
    rcases hkey with rfl | rfl
    · cases htank.symm.trans hc
      cases htank'.symm.trans hd
      refine ⟨rfl, fun name => ?_, rfl⟩
      rw [← OrderedMap.find?_mapValues, ← OrderedMap.find?_mapValues]
      exact OrderedMap.find?_eq_of_perm (.swap ("level", level 0) ("gain", gain 0 value) []) name
    · cases hpump.symm.trans hc
      cases hpump'.symm.trans hd
      exact ⟨rfl, fun _ => rfl, rfl⟩

/-- The digested text does not depend on the order, but tells the real one from the integer. -/
theorem canonicalText_forwards :
    (forwards (.real 1.0)).canonicalText = (backwards (.real 1.0)).canonicalText ∧
      (forwards (.real 1.0)).canonicalText ≠ (backwards (.integer 1)).canonicalText := by
  have hkeyed := forwards_isKeyed (.real 1.0)
  have hreals : ∀ x ∈ (forwards (.real 1.0)).reals, x.isFinite = true := by decide +kernel
  have hreals' : ∀ x ∈ (backwards (.real 1.0)).reals, x.isFinite = true := by decide +kernel
  constructor
  · rw [canonicalText_eq_iff hkeyed hreals hreals']
    exact forwards_equalUpToOrder _
  · rw [Ne, canonicalText_eq_iff hkeyed hreals (by nofun)]
    intro h
    obtain ⟨-, hsymbols, -⟩ := Option.rel_some_some.mp (h "Tank")
    cases hsymbols "gain"

end SourceUnit

end FlatModel
