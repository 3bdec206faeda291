import Mathlib.Data.List.Forall2
import Mathlib.Data.Option.Defs
import FlatModel.Proofs.CanonicalForm
import FlatModel.Proofs.VisitedNodes

/-!
# Units put together step by step

Any number of classes may be drafted side by side, and each of them may be added to a unit as it
stands, again and again.

* `BuildStep`, `Bench`, `Bench.after` — the steps, the classes in the making with their unit, and what
  these are after any steps.
* `ClassRecord`, `Ledger` — what was put into each class, and in what state classes were added: plain
  lists in the order of the steps, nothing replaced and nothing numbered.
* `OrderedMap.Records` — a map into which a list was inserted: of each name the last item, at the place
  of the first.
* `ClassDef.Holds`, `SourceUnit.Holds`, `Bench.Follows` — classes, units and benches hold what was put
  into them; `Bench.Follows.perform` is the step, `Bench.follows_after` the run.
* `Bench.after_wellFormed` — what holds after any steps.
-/

namespace FlatModel

/-! ## Steps -/

/-- A step in putting a unit together.  Drafts of classes are counted from zero, in the order in which
they were begun. -/
inductive BuildStep where
  /-- Begin a class without symbols and equations. -/
  | newClass (name : String)
  /-- Add a symbol to a draft. -/
  | addSymbol (draft : Nat) (s : Symbol)
  /-- Add an equation to a draft. -/
  | addEquation (draft : Nat) (left right : Expression)
  /-- Add a draft to the unit as it stands; it may be worked on after that. -/
  | addClass (draft : Nat)

/-- The drafts and the unit they are added to. -/
structure Bench where
  /-- The drafts. -/
  drafts : List ClassDef := []
  /-- The unit. -/
  unit : SourceUnit := {}

namespace Bench

/-- The bench after a step; a draft that was not begun is not changed and not added. -/
def perform (b : Bench) : BuildStep → Bench
  | .newClass name => { b with drafts := b.drafts ++ [.new name] }
  | .addSymbol i s => { b with drafts := b.drafts.modify i fun c => c.addSymbol s }
  | .addEquation i left right =>
      { b with drafts := b.drafts.modify i fun c => c.addEquation left right }
  | .addClass i => { b with unit := b.drafts[i]?.elim b.unit b.unit.addClass }

/-- The bench after steps from the start. -/
def after (steps : List BuildStep) : Bench := steps.foldl perform {}

end Bench

/-- What was put into a class, in order. -/
structure ClassRecord where
  /-- The name of the class. -/
  name : String
  /-- The symbols that were added. -/
  symbols : List Symbol := []
  /-- The sides of the equations that were added. -/
  equations : List (Expression × Expression) := []

/-- What was put into each draft, and what had been put into the classes that were added, in order. -/
structure Ledger where
  /-- The records of the drafts. -/
  drafts : List ClassRecord := []
  /-- The records of the added classes as they were then. -/
  added : List ClassRecord := []

namespace Ledger

/-- The ledger after a step. -/
def perform (l : Ledger) : BuildStep → Ledger
  | .newClass name => { l with drafts := l.drafts ++ [⟨name, [], []⟩] }
  | .addSymbol i s =>
      { l with drafts := l.drafts.modify i fun r => { r with symbols := r.symbols ++ [s] } }
  | .addEquation i left right =>
      { l with drafts := l.drafts.modify i fun r =>
          { r with equations := r.equations ++ [(left, right)] } }
  | .addClass i => { l with added := l.added ++ l.drafts[i]?.toList }

/-- The ledger after steps from the start. -/
def after (steps : List BuildStep) : Ledger := steps.foldl perform {}

end Ledger

/-! ## Maps that record what was inserted -/

namespace OrderedMap

variable {α β γ : Type} {R : α → β → Prop} {name : β → String} {m : OrderedMap α} {items : List β}

/-- Items were inserted into the map under their names: a name stands where it came first, and its
value is that of the last item of this name. -/
structure Records (R : α → β → Prop) (name : β → String) (m : OrderedMap α) (items : List β) :
    Prop where
  /-- The names in the order in which they came first. -/
  keys : m.keys = (items.map name).eraseDups
  /-- The values of the last items. -/
  find? : ∀ key, Option.Rel R (m.find? key) (items.filter fun b => name b == key).getLast?

/-- Nothing was inserted into the empty map. -/
theorem records_empty : Records R name (empty : OrderedMap α) [] := ⟨rfl, fun _ => .none⟩

/-- **Inserting one more item.** -/
theorem Records.insert (h : m.Records R name items) {a : α} {b : β} (hab : R a b) :
    (m.insert (name b) a).Records R name (items ++ [b]) := by
  constructor
  · rw [keys_insert, h.keys, List.map_append, List.map_singleton, eraseDups_concat]
  · intro key
    rw [find?_insert, List.filter_append, List.getLast?_append]
    by_cases hkey : key = name b
    · have hlast : [b].filter (fun b => name b == key) = [b] := by simp [hkey]
      rw [if_pos hkey, hlast]
      exact .some hab
    · have hnone : [b].filter (fun b => name b == key) = [] := by simp [Ne.symm hkey]
      rw [if_neg hkey, hnone]
      exact h.find? key

/-- A map that differs in nothing a relation looks at records the same. -/
theorem Records.of_mapValues {m' : OrderedMap α} {f : α → γ} (h : m.Records R name items)
    (hf : ∀ a a' b, f a = f a' → R a b → R a' b) (hm : m.mapValues f = m'.mapValues f) :
    m'.Records R name items := by
  constructor
  · rw [← keys_mapValues f m', ← hm, keys_mapValues, h.keys]
  · intro key
    have hkey : (m.find? key).map f = (m'.find? key).map f := by
      rw [← find?_mapValues, hm, find?_mapValues]
    have hrel := h.find? key
    generalize m.find? key = x at hkey hrel
    generalize m'.find? key = y at hkey
    generalize (items.filter fun b => name b == key).getLast? = last at hrel
    cases hrel with
    | none =>
        obtain rfl := Option.map_eq_none_iff.mp hkey.symm
        exact .none
    | @some a b hab =>
        obtain ⟨a', rfl, ha'⟩ := Option.map_eq_some_iff.mp hkey.symm
        exact .some (hf a a' b ha'.symm hab)

/-- Every entry stands under the name of the item it was made from. -/
theorem Records.exists_of_mem (h : m.Records R name items) {key : String} {a : α}
    (ha : (key, a) ∈ m.entries) : ∃ b ∈ items, R a b ∧ name b = key := by
  have hrel := h.find? key
  rw [find?_eq_some_iff.mpr ha] at hrel
  rcases hlast : (items.filter fun b => name b == key).getLast? with _ | b
  · rw [hlast] at hrel
    cases hrel
  · rw [hlast] at hrel
    obtain ⟨hb, hkey⟩ := List.mem_filter.mp (List.mem_of_getLast? hlast)
    cases hrel with
    | some hab => exact ⟨b, hb, hab, beq_iff_eq.mp hkey⟩

end OrderedMap

/-! ## Classes -/

namespace ClassDef

variable {c : ClassDef} {r : ClassRecord}

/-- The class holds what was put into it. -/
structure Holds (c : ClassDef) (r : ClassRecord) : Prop where
  /-- It has the name with which it was begun. -/
  name : c.name = r.name
  /-- The symbols are those that were added. -/
  symbols : c.symbols.Records (· = ·) Symbol.name r.symbols
  /-- The equations are those that were added, in order. -/
  equations : c.equations = r.equations.map fun p => ⟨p.1, p.2, 0⟩

/-- Nothing was put into a new class. -/
theorem holds_new (name : String) : (new name).Holds ⟨name, [], []⟩ :=
  ⟨rfl, OrderedMap.records_empty, rfl⟩

/-- One more symbol. -/
theorem Holds.addSymbol (h : c.Holds r) (s : Symbol) :
    (c.addSymbol s).Holds { r with symbols := r.symbols ++ [s] } :=
  ⟨h.name, h.symbols.insert rfl, h.equations⟩

/-- One more equation. -/
theorem Holds.addEquation (h : c.Holds r) (left right : Expression) :
    (c.addEquation left right).Holds { r with equations := r.equations ++ [(left, right)] } := by
  refine ⟨h.name, h.symbols, ?_⟩
  show c.equations ++ [_] = _
  rw [h.equations, List.map_append]
  rfl

/-- The symbols of what was put together stand under their names. -/
theorem Holds.isKeyed (h : c.Holds r) : c.IsKeyed := by
  rintro ⟨key, s⟩ hs
  obtain ⟨_, _, rfl, hkey⟩ := h.symbols.exists_of_mem hs
  exact hkey.symm

/-- Symbols stand under their names whatever their numbers are. -/
theorem isKeyed_erase_iff : c.erase.IsKeyed ↔ c.IsKeyed := by
  constructor
  · exact fun h p hp => h (p.1, p.2.erase) (List.mem_map_of_mem hp)
  · intro h p hp
    obtain ⟨q, hq, rfl⟩ := List.mem_map.mp hp
    exact h q hq

/-- The class is one into which this was put, but for numbers. -/
def HoldsNumbered (c : ClassDef) (r : ClassRecord) : Prop :=
  ∃ d : ClassDef, d.Holds r ∧ d.erase = c.erase

/-- It has the name with which it was begun. -/
theorem HoldsNumbered.name_eq (h : c.HoldsNumbered r) : c.name = r.name := by
  obtain ⟨d, hd, herase⟩ := h
  exact (congrArg ClassDef.name herase).symm.trans hd.name

/-- Its symbols stand under their names. -/
theorem HoldsNumbered.isKeyed (h : c.HoldsNumbered r) : c.IsKeyed := by
  obtain ⟨d, hd, herase⟩ := h
  rw [← isKeyed_erase_iff, ← herase, isKeyed_erase_iff]
  exact hd.isKeyed

end ClassDef

/-! ## Units -/

namespace SourceUnit

variable {u : SourceUnit} {c : ClassDef} {r : ClassRecord} {added : List ClassRecord}

/-- A unit that is numbered stays as it is when it is numbered again. -/
theorem numbered_numbered (u : SourceUnit) : u.numbered.numbered = u.numbered := by
  rw [← numbered_erase u.numbered, erase_numbered, numbered_erase]

/-- The contents of a unit with one more class, but for numbers. -/
theorem erase_addClass (u : SourceUnit) (c : ClassDef) :
    (u.addClass c).erase = (⟨u.classes.insert c.name c, u.id⟩ : SourceUnit).erase :=
  erase_numbered _

/-- **Numbers from before do not survive**: a unit with one more class does not depend on those of the
unit, of the class, or of a class that is replaced. -/
theorem addClass_erase (u : SourceUnit) (c : ClassDef) : u.erase.addClass c.erase = u.addClass c := by
  have herase : (⟨u.erase.classes.insert c.name c.erase, 0⟩ : SourceUnit) =
      (⟨u.classes.insert c.name c, 0⟩ : SourceUnit).erase := by
    rw [erase, erase, OrderedMap.mapValues_insert]
  show (⟨u.erase.classes.insert c.name c.erase, 0⟩ : SourceUnit).numbered = _
  rw [herase, numbered_erase]
  rfl

/-- The unit holds the classes that were added to it, numbered as a whole. -/
structure Holds (u : SourceUnit) (added : List ClassRecord) : Prop where
  /-- The classes are those that were added, but for numbers. -/
  classes : u.classes.Records ClassDef.HoldsNumbered ClassRecord.name added
  /-- The numbers are those that numbering the unit gives out. -/
  numbered : u.numbered = u

/-- Nothing was added to the unit at the start. -/
theorem holds_empty : ({} : SourceUnit).Holds [] := ⟨OrderedMap.records_empty, rfl⟩

/-- **One more class.** -/
theorem Holds.addClass (h : u.Holds added) (hc : c.Holds r) : (u.addClass c).Holds (added ++ [r]) := by
  refine ⟨?_, numbered_numbered _⟩
  have hinsert := h.classes.insert (a := c) ⟨c, hc, rfl⟩
  rw [← hc.name] at hinsert
  refine hinsert.of_mapValues (f := ClassDef.erase) ?_ ?_
  · rintro a a' r herase ⟨d, hd, hda⟩
    exact ⟨d, hd, hda.trans herase⟩
  · exact (congrArg SourceUnit.classes (erase_addClass u c)).symm

/-- Classes stand under their names, and so do their symbols. -/
theorem Holds.isKeyed (h : u.Holds added) : u.IsKeyed := by
  rintro ⟨key, c⟩ hc
  obtain ⟨r, _, hr, hkey⟩ := h.classes.exists_of_mem hc
  exact ⟨hkey.symm.trans hr.name_eq.symm, hr.isKeyed⟩

/-- The nodes have their places in post-order as numbers. -/
theorem Holds.ids_nodes (h : u.Holds added) : u.nodes.map Node.id = List.range u.nodeCount := by
  have hids := u.ids_numbered
  rwa [h.numbered] at hids

end SourceUnit

/-! ## Runs -/

/-- Changing what two lists have at a place keeps them related if the changes do. -/
theorem forall₂_modify {α β : Type} {R : α → β → Prop} {f : α → α} {g : β → β}
    (hfg : ∀ a b, R a b → R (f a) (g b)) {as : List α} {bs : List β} (h : List.Forall₂ R as bs) :
    ∀ i, List.Forall₂ R (as.modify i f) (bs.modify i g) := by
  induction h with
  | nil => exact fun i => by cases i <;> exact .nil
  | @cons a b as bs hab hrest ih =>
      intro i
      cases i with
      | zero => exact .cons (hfg a b hab) hrest
      | succ i => exact .cons hab (ih i)

/-- What related lists have at a place is related. -/
theorem forall₂_getElem? {α β : Type} {R : α → β → Prop} {as : List α} {bs : List β}
    (h : List.Forall₂ R as bs) : ∀ i : Nat, Option.Rel R as[i]? bs[i]? := by
  induction h with
  | nil => exact fun _ => .none
  | cons hab _ ih =>
      intro i
      cases i with
      | zero => exact .some hab
      | succ i => exact ih i

namespace Bench

variable {b : Bench} {l : Ledger}

/-- The bench holds what the ledger says. -/
structure Follows (b : Bench) (l : Ledger) : Prop where
  /-- Every draft holds what was put into it. -/
  drafts : List.Forall₂ ClassDef.Holds b.drafts l.drafts
  /-- The unit holds what was added to it. -/
  unit : b.unit.Holds l.added

/-- **One step.** -/
theorem Follows.perform (h : b.Follows l) (step : BuildStep) :
    (b.perform step).Follows (l.perform step) := by
  cases step with
  | newClass name =>
      exact ⟨List.rel_append h.drafts (.cons (ClassDef.holds_new name) .nil), h.unit⟩
  | addSymbol i s => exact ⟨forall₂_modify (fun _ _ hc => hc.addSymbol s) h.drafts i, h.unit⟩
  | addEquation i left right =>
      exact ⟨forall₂_modify (fun _ _ hc => hc.addEquation left right) h.drafts i, h.unit⟩
  | addClass i =>
      refine ⟨h.drafts, ?_⟩
      have hdraft := forall₂_getElem? h.drafts i
      show (b.drafts[i]?.elim b.unit b.unit.addClass).Holds (l.added ++ l.drafts[i]?.toList)
      generalize b.drafts[i]? = draft at hdraft
      generalize l.drafts[i]? = record at hdraft
      cases hdraft with
      | none =>
          rw [Option.toList_none, List.append_nil]
          exact h.unit
      | some hc => exact h.unit.addClass hc

/-- **Any steps.** -/
theorem follows_after (steps : List BuildStep) : (after steps).Follows (Ledger.after steps) := by
  induction steps using List.reverseRecOn with
  | nil => exact ⟨.nil, SourceUnit.holds_empty⟩
  | append_singleton steps step ih =>
      rw [after, Ledger.after, List.foldl_append, List.foldl_append]
      exact ih.perform step

/-- **What is put together step by step is well formed.**  After any steps, in whatever order drafts
are begun, worked on and added:
* symbols and classes stand under their own names, and no name is there twice;
* every draft holds the symbols and equations that were put into it, and the unit holds the classes
  that were added to it as they were then, of each name the last one at the place of the first;
* the nodes of the unit have their places in post-order as numbers, which are those that numbering
  the unit would give out.

A symbol or a class under a name that is there replaces the one that stands there, and nothing else
changes but numbers; these do not depend on any that stood in the unit or the class before. -/
theorem after_wellFormed (steps : List BuildStep) :
    let b := after steps
    let l := Ledger.after steps
    ((∀ c ∈ b.drafts, c.IsKeyed ∧ c.symbols.keys.Nodup) ∧ b.unit.IsKeyed ∧
      b.unit.classes.keys.Nodup ∧ ∀ c ∈ b.unit.classes.values, c.symbols.keys.Nodup) ∧
    (List.Forall₂ ClassDef.Holds b.drafts l.drafts ∧ b.unit.Holds l.added) ∧
    (b.unit.nodes.map Node.id = List.range b.unit.nodeCount ∧ b.unit.numbered = b.unit) ∧
    (∀ c : ClassDef, ∀ s, (c.addSymbol s).equations = c.equations ∧
      (c.addSymbol s).symbols.entries =
        if s.name ∈ c.symbols.keys then
          c.symbols.entries.map fun p => if p.1 = s.name then (s.name, s) else p
        else c.symbols.entries ++ [(s.name, s)]) ∧
    ∀ c : ClassDef, (b.unit.addClass c).erase.classes.entries =
        (if c.name ∈ b.unit.classes.keys then
          b.unit.erase.classes.entries.map fun p => if p.1 = c.name then (c.name, c.erase) else p
        else b.unit.erase.classes.entries ++ [(c.name, c.erase)]) ∧
      b.unit.addClass c = b.unit.erase.addClass c.erase := by
  intro b l
  have h : b.Follows l := follows_after steps
  have hkeyed : ∀ c ∈ b.drafts, c.IsKeyed :=
    ((List.forall₂_and_left _ _).mp (h.drafts.imp fun _ _ hc => ⟨hc.isKeyed, hc⟩)).1
  refine ⟨⟨fun c hc => ⟨hkeyed c hc, c.symbols.nodup⟩, h.unit.isKeyed, b.unit.classes.nodup,
    fun c _ => c.symbols.nodup⟩, ⟨h.drafts, h.unit⟩, ⟨h.unit.ids_nodes, h.unit.numbered⟩,
    fun c s => ⟨rfl, c.symbols.entries_insert s.name s⟩,
    fun c => ⟨?_, (b.unit.addClass_erase c).symm⟩⟩
  have hinsert := b.unit.erase.classes.entries_insert c.name c.erase
  have hkeys : b.unit.erase.classes.keys = b.unit.classes.keys := OrderedMap.keys_mapValues _ _
  rw [hkeys] at hinsert
  rw [SourceUnit.erase_addClass, SourceUnit.erase, OrderedMap.mapValues_insert]
  exact hinsert

/-- Two classes side by side; the first one is added before and after it gets its equation and a
start value for a symbol that it has already. -/
def reworked : List BuildStep :=
  [.newClass "Tank", .newClass "Pump", .addSymbol 0 { name := "h", order := 0 },
    .addSymbol 0 { name := "q", order := 1 }, .addClass 0, .addClass 1,
    .addSymbol 0 { name := "h", order := 0, start := some (.ofLiteral (.integer 1)) },
    .addEquation 0 (.der (.ref "h")) (.ref "q"), .addClass 0]

/-- The class and its symbol keep their places, the symbol has its start value, and the ten nodes are
numbered from zero. -/
theorem after_wellFormed_reworked :
    ∃ c ∈ (after reworked).drafts, c.name = "Tank" ∧ c.IsKeyed ∧ c.symbols.keys = ["h", "q"] ∧
      ((c.symbols.find? "h").bind Symbol.start).isSome = true ∧
      (after reworked).unit.classes.keys = ["Tank", "Pump"] ∧
      (after reworked).unit.nodes.map Node.id = List.range 10 := by
  obtain ⟨⟨hdrafts, -⟩, ⟨-, hunit⟩, ⟨hids, -⟩, -⟩ := after_wellFormed reworked
  obtain ⟨c, hc⟩ : ∃ c, (after reworked).drafts[0]? = some c := ⟨_, rfl⟩
  have hmem : c ∈ (after reworked).drafts := List.mem_of_getElem? hc
  refine ⟨c, hmem, ?_, (hdrafts c hmem).1, ?_, ?_, hunit.classes.keys.trans (by decide), hids⟩
  all_goals cases hc; decide +kernel

end Bench

end FlatModel
