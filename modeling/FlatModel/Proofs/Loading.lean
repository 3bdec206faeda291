import FlatModel.Proofs.ShortNumerals
import FlatModel.Proofs.WrittenTree

/-!
# Loading what was written

The text of a unit is read back as the unit it was written from, numbers of nodes aside; loading
then numbers the nodes as it numbers those of the unit itself.  Real literals are read over a machine
word, so this needs that their numerals are read as the same doubles.

* `Json.depth` — how deep the containers of a value are nested; `Json.room_of_array`,
  `Json.room_of_record` — a reader with room for a container has room for what is in it.
* `Json.ReadsBack` — doubles that are read as they were written; `Json.IsShort.readsBack` says that
  those of few digits are.
* `mapOfJson?_record` — a map is read if its values are.
* `OrderedMap.ofList_entries` — a map is the map of its entries.
* `Literal.ofJson?_toJson`, …, `SourceUnit.ofJson?_toJson` — each part of a unit is read as what was
  written, with the number zero at every node.
* `SourceUnit.load?_text` — loading undoes writing.
-/

namespace FlatModel

open Decimal

/-! ## Depth -/

namespace Json

mutual

/-- How many containers of a value are nested in each other. -/
def depth : Json → Nat
  | .array items => depthItems items + 1
  | .object members => depthMembers members + 1
  | _ => 0

/-- How many containers are nested in one of the items. -/
def depthItems : List Json → Nat
  | [] => 0
  | item :: rest => max item.depth (depthItems rest)

/-- How many containers are nested in one of the members. -/
def depthMembers : List (Option String × Json) → Nat
  | [] => 0
  | (_, value) :: rest => max value.depth (depthMembers rest)

end

/-- Items are nested as deep as the deepest. -/
theorem depthItems_le {n : Nat} {items : List Json} :
    depthItems items ≤ n ↔ ∀ item ∈ items, item.depth ≤ n := by
  induction items with
  | nil => simp [depthItems]
  | cons item rest ih => rw [depthItems, Nat.max_le, List.forall_mem_cons, ih]

/-- Fields are nested as deep as the deepest. -/
theorem depthMembers_record_le {n : Nat} : ∀ {members : List (String × Json)},
    depthMembers (members.map fun m => (some m.1, m.2)) ≤ n ↔ ∀ m ∈ members, m.2.depth ≤ n
  | [] => by simp [depthMembers]
  | m :: rest => by
      rw [List.map_cons, depthMembers, Nat.max_le, List.forall_mem_cons, depthMembers_record_le]

/-- Where an array fits, its items fit one level further in. -/
theorem room_of_array {items : List Json} {room : Nat} (h : (array items).depth ≤ room) :
    ∃ n, room = n + 1 ∧ ∀ item ∈ items, item.depth ≤ n := by
  rw [depth] at h
  obtain ⟨n, rfl⟩ := Nat.exists_eq_add_of_le' h
  exact ⟨n + depthItems items, by omega, depthItems_le.mp (by omega)⟩

/-- Where a record fits, its fields fit one level further in. -/
theorem room_of_record {members : List (String × Json)} {room : Nat}
    (h : (record members).depth ≤ room) : ∃ n, room = n + 1 ∧ ∀ m ∈ members, m.2.depth ≤ n := by
  rw [record, depth] at h
  obtain ⟨n, rfl⟩ := Nat.exists_eq_add_of_le' h
  refine ⟨n + depthMembers (members.map fun m => (some m.1, m.2)), by omega, ?_⟩
  exact depthMembers_record_le.mp (by omega)

/-! ## Records -/

/-- The entries of a record are its members. -/
theorem entries?_record (members : List (String × Json)) :
    (record members).entries? = some members := by
  induction members with
  | nil => rfl
  | cons m rest ih =>
      rw [record, entries?] at ih ⊢
      rw [List.map_cons, List.mapM_cons, ih]
      rfl

end Json

/-- A list is read as it is to be if each item is. -/
theorem mapM_map_eq_some {α β γ : Type} {f : α → β} {g : α → γ} {read : β → Option γ} :
    ∀ {l : List α}, (∀ a ∈ l, read (f a) = some (g a)) → (l.map f).mapM read = some (l.map g)
  | [], _ => rfl
  | a :: rest, h => by
      obtain ⟨ha, hrest⟩ := List.forall_mem_cons.mp h
      rw [List.map_cons, List.mapM_cons, ha, mapM_map_eq_some hrest]
      rfl

/-- Entries under a new name are put at the end. -/
theorem OrderedMap.insertEntry_of_notMem {α : Type} {key : String} {value : α} :
    ∀ {entries : List (String × α)}, key ∉ entries.map Prod.fst →
      insertEntry key value entries = entries ++ [(key, value)]
  | [], _ => rfl
  | (k, v) :: rest, h => by
      rw [List.map_cons, List.mem_cons, not_or] at h
      rw [insertEntry, if_neg fun heq => h.1 heq.symm, insertEntry_of_notMem h.2, List.cons_append]

/-- **A map is the map of its entries.** -/
theorem OrderedMap.ofList_entries {α : Type} (m : OrderedMap α) : ofList m.entries = m := by
  have hentries : ∀ pairs : List (String × α), (pairs.map Prod.fst).Nodup →
      (ofList pairs).entries = pairs := by
    intro pairs
    induction pairs using List.reverseRecOn with
    | nil => exact fun _ => rfl
    | append_singleton pairs p ih =>
        intro h
        rw [List.map_append, List.nodup_append] at h
        have hnew : p.1 ∉ pairs.map Prod.fst :=
          fun hmem => h.2.2 _ hmem _ List.mem_cons_self rfl
        rw [ofList_concat]
        show insertEntry p.1 p.2 (ofList pairs).entries = _
        rw [ih h.1, insertEntry_of_notMem hnew]
  exact ext_entries (hentries m.entries m.nodup)

/-- A map is read as it is to be if each value is. -/
theorem mapOfJson?_record {α β : Type} {write : α → Json} {read : Nat → Json → Option β}
    {erase : α → β} {m : OrderedMap α} {room : Nat}
    (hdepth : (Json.record (m.entries.map fun p => (p.1, write p.2))).depth ≤ room)
    (hread : ∀ a ∈ m.values, ∀ n, (write a).depth ≤ n → read n (write a) = some (erase a)) :
    mapOfJson? read room (.record (m.entries.map fun p => (p.1, write p.2))) =
      some (m.mapValues erase) := by
  obtain ⟨n, rfl, hn⟩ := Json.room_of_record hdepth
  have hpairs : (m.entries.map fun p => (p.1, write p.2)).mapM
      (fun p => (read n p.2).map fun value => (p.1, value)) =
        some (m.entries.map fun p => (p.1, erase p.2)) := by
    apply mapM_map_eq_some
    intro p hp
    have hp' := hread p.2 (List.mem_map_of_mem hp) n (hn _ (List.mem_map_of_mem hp))
    exact congrArg (Option.map fun value => (p.1, value)) hp'
  have hmap := (m.mapValues erase).ofList_entries
  simp only [mapOfJson?, Json.entries?_record, Option.bind_eq_bind, Option.bind_some, hpairs]
  exact congrArg some hmap

/-! ## Literals -/

/-- The double is finite, and its numeral is read as the same double. -/
structure Json.ReadsBack (x : Float) : Prop where
  /-- It is finite, so that it has a numeral. -/
  finite : x.isFinite = true
  /-- The numeral is read as the double. -/
  numeral : (realLayout.numeral x).machineFloat? = some x

/-- The double is finite, and its numeral has few digits near the point. -/
def Json.IsShort (x : Float) : Prop :=
  x.isFinite = true ∧ (realLayout.numeral x).coefficient < 2 ^ 53 ∧
    (realLayout.numeral x).scale.natAbs < 23

/-- Whether a double is short is read off its numeral. -/
instance : DecidablePred Json.IsShort := fun _ => inferInstanceAs (Decidable (_ ∧ _ ∧ _))

/-- **Short doubles are read as they were written.** -/
theorem Json.IsShort.readsBack {x : Float} (h : IsShort x) : ReadsBack x :=
  ⟨h.1, realLayout.machineFloat?_numeral h.1 h.2.1 h.2.2⟩

/-- A double with sixteen digits, which is read as its neighbour. -/
example : ¬ Json.ReadsBack 0.9385958677423489 := fun h => absurd h.numeral (by decide +kernel)

/-- **A literal is read as it was written**, its kind included. -/
theorem Literal.ofJson?_toJson {value : Literal} (hreals : ∀ x ∈ value.reals, Json.ReadsBack x) :
    ofJson? value.toJson = some value := by
  cases value with
  | boolean v => rfl
  | string v => rfl
  | integer v =>
      have hrange : (Int64.minValue.toInt ≤ v.toInt && v.toInt ≤ Int64.maxValue.toInt) = true := by
        rw [Bool.and_eq_true, decide_eq_true_eq, decide_eq_true_eq]
        exact ⟨v.minValue_le_toInt, v.toInt_le⟩
      rw [toJson, Json.int, ofJson?, Numeral.toInt?_ofInt, Option.filter_some, if_pos hrange]
      exact congrArg (fun i => some (integer i)) (Int64.ofInt_toInt v)
  | real x =>
      have hx := hreals x List.mem_cons_self
      rw [toJson, Json.real_eq hx.finite, ofJson?, Layout.toInt?_numeral rfl, Option.filter_none]
      dsimp only
      rw [hx.numeral, Option.map_some]

/-! ## Expressions -/

/-- The record of a reference has its name. -/
theorem referenceOfRecord?_record (n : Nat) (name : String) :
    referenceOfRecord? (n + 1) (.record [("name", .str name)]) = some name := rfl

/-- The record of a literal has its value. -/
theorem Literal.ofRecord?_record (n : Nat) (value : Json) :
    ofRecord? (n + 1) (.record [("value", value)]) = ofJson? value := rfl

/-- The record of an operation has its operator and its operands. -/
theorem Expression.ofJson?_operation (n : Nat) (operator : String) (items : List Json) :
    ofJson? (n + 3) (.record [("operation", .record [("operator", .str operator),
      ("operands", .array items)])]) = (items.mapM (ofJson? n)).map (apply operator) := by
  have hfields : (Json.record [("operator", .str operator), ("operands", .array items)]).fields?
      ["operator", "operands"] = some [some (.str operator), some (.array items)] := rfl
  rw [Json.record, List.map_cons, List.map_nil, ofJson?, hfields]
  exact (Option.map_eq_bind ..).symm

mutual

/-- **An expression is read as it was written** but for numbers. -/
theorem Expression.ofJson?_toJson : ∀ (e : Expression) {room : Nat},
    (∀ x ∈ e.reals, Json.ReadsBack x) → e.toJson.depth ≤ room →
      ofJson? room e.toJson = some e.erase
  | .literal _ value, room, hreals, hdepth => by
      obtain ⟨n, rfl, hbody⟩ := Json.room_of_record hdepth
      obtain ⟨n, rfl, -⟩ := Json.room_of_record (hbody _ List.mem_cons_self)
      show (Literal.ofRecord? (n + 1) (.record [("value", value.toJson)])).map _ = _
      rw [Literal.ofRecord?_record, Literal.ofJson?_toJson hreals]
      rfl
  | .reference _ name, room, _, hdepth => by
      obtain ⟨n, rfl, hbody⟩ := Json.room_of_record hdepth
      obtain ⟨n, rfl, -⟩ := Json.room_of_record (hbody _ List.mem_cons_self)
      show (referenceOfRecord? (n + 1) (.record [("name", .str name)])).map _ = _
      rw [referenceOfRecord?_record]
      rfl
  | .operation _ operator operands, room, hreals, hdepth => by
      obtain ⟨n, rfl, hbody⟩ := Json.room_of_record hdepth
      obtain ⟨n, rfl, hfields⟩ := Json.room_of_record (hbody _ List.mem_cons_self)
      obtain ⟨n, rfl, hitems⟩ :=
        Json.room_of_array (hfields _ (List.mem_cons_of_mem _ List.mem_cons_self))
      rw [toJson, Expression.ofJson?_operation,
        Expression.mapM_allToJson operands hreals hitems]
      rfl

/-- Expressions are read as they were written but for numbers. -/
theorem Expression.mapM_allToJson : ∀ (es : List Expression) {room : Nat},
    (∀ x ∈ realsAll es, Json.ReadsBack x) → (∀ j ∈ allToJson es, j.depth ≤ room) →
      (allToJson es).mapM (ofJson? room) = some (eraseAll es)
  | [], _, _, _ => rfl
  | e :: rest, room, hreals, hdepth => by
      obtain ⟨hfe, hfrest⟩ := List.forall_mem_append.mp hreals
      obtain ⟨hde, hdrest⟩ := List.forall_mem_cons.mp hdepth
      rw [allToJson, List.mapM_cons, Expression.ofJson?_toJson e hfe hde,
        Expression.mapM_allToJson rest hfrest hdrest]
      rfl

end

/-- An expression is not written as `null`, so one that is there is read as there. -/
theorem optionalOfJson?_toJson {e : Option Expression} {room : Nat}
    (hreals : ∀ x ∈ e.toList.flatMap Expression.reals, Json.ReadsBack x)
    (hdepth : ∀ f ∈ e, f.toJson.depth ≤ room) :
    optionalOfJson? room (e.map Expression.toJson) = some (e.map Expression.erase) := by
  cases e with
  | none => rfl
  | some f =>
      rw [Option.toList_some, List.flatMap_singleton] at hreals
      have hread := f.ofJson?_toJson hreals (hdepth f rfl)
      have hsome : optionalOfJson? room (some f.toJson) =
          (Expression.ofJson? room f.toJson).map some := by
        cases f <;> rfl
      rw [Option.map_some, hsome, hread]
      rfl

/-! ## Equations and symbols -/

/-- **An equation is read as it was written** but for numbers. -/
theorem Equation.ofJson?_toJson {e : Equation} {room : Nat}
    (hreals : ∀ x ∈ e.reals, Json.ReadsBack x) (hdepth : e.toJson.depth ≤ room) :
    ofJson? room e.toJson = some e.erase := by
  obtain ⟨hleft, hright⟩ := List.forall_mem_append.mp hreals
  obtain ⟨n, rfl, hsides⟩ := Json.room_of_record hdepth
  have hl := e.left.ofJson?_toJson hleft (hsides _ List.mem_cons_self)
  have hr := e.right.ofJson?_toJson hright (hsides _ (List.mem_cons_of_mem _ List.mem_cons_self))
  show (do return ⟨← Expression.ofJson? n e.left.toJson, ← Expression.ofJson? n e.right.toJson, 0⟩)
    = some e.erase
  rw [hl, hr]
  rfl

/-- An order of declaration is read as it was written. -/
theorem orderOfJson?_nat (order : UInt64) : orderOfJson? (.nat order.toNat) = some order := by
  have hrange : (0 : Int) ≤ order.toNat ∧ (order.toNat : Int).toNat < UInt64.size :=
    ⟨Int.natCast_nonneg _, order.toNat_lt⟩
  rw [Json.nat, Json.int, orderOfJson?, Numeral.toInt?_ofInt]
  dsimp only
  rw [if_pos hrange, Int.toNat_natCast, UInt64.ofNat_toNat]

/-- A set of roles is read as it was written. -/
theorem Roles.ofJson?_names (roles : Roles) (n : Nat) :
    ofJson? (n + 1) (some (.array (roles.toList.map fun r => .str r.name))) = some roles := by
  have hroles : (roles.toList.map fun r : Role => Json.str r.name).mapM (Role.ofJson? n) =
      some (roles.toList.map id) :=
    mapM_map_eq_some fun r _ => Role.ofName?_name r
  rw [List.map_id] at hroles
  show ((roles.toList.map fun r => Json.str r.name).mapM (Role.ofJson? n)).bind _ = _
  rw [hroles]
  exact congrArg some roles.ofList_toList

/-- The fields of the record of a symbol. -/
theorem Symbol.fields?_members (s : Symbol) :
    (Json.record s.members).fields? ["name", "order", "prefixes", "value", "start"] =
      some [some (.str s.name), some (.nat s.order.toNat),
        some (.array (s.roles.toList.map fun r => .str r.name)),
        s.value.map Expression.toJson, s.start.map Expression.toJson] := by
  obtain ⟨_, _, _, value, start, _⟩ := s
  cases value <;> cases start <;> rfl

/-- What a symbol holds fits where its record does. -/
theorem Symbol.depth_of_members {s : Symbol} {n : Nat} (h : ∀ m ∈ s.members, m.2.depth ≤ n) :
    (∀ e ∈ s.value, e.toJson.depth ≤ n) ∧ ∀ e ∈ s.start, e.toJson.depth ≤ n := by
  constructor
  · intro e he
    refine h ("value", e.toJson) ?_
    simp [members, optionalField, Option.mem_def.mp he]
  · intro e he
    refine h ("start", e.toJson) ?_
    simp [members, optionalField, Option.mem_def.mp he]

/-- **A symbol is read as it was written** but for numbers. -/
theorem Symbol.ofJson?_toJson {s : Symbol} {room : Nat}
    (hreals : ∀ x ∈ s.reals, Json.ReadsBack x) (hdepth : s.toJson.depth ≤ room) :
    ofJson? room s.toJson = some s.erase := by
  obtain ⟨hvalue, hstart⟩ := List.forall_mem_append.mp hreals
  rw [toJson_eq] at hdepth ⊢
  obtain ⟨n, rfl, hmembers⟩ := Json.room_of_record hdepth
  obtain ⟨hdv, hds⟩ := depth_of_members hmembers
  obtain ⟨n, rfl, -⟩ := Json.room_of_array (hmembers
    ("prefixes", .array (s.roles.toList.map fun r => .str r.name)) (by simp [members]))
  have hv := optionalOfJson?_toJson hvalue hdv
  have hs := optionalOfJson?_toJson hstart hds
  unfold ofJson?
  rw [fields?_members]
  dsimp only
  rw [orderOfJson?_nat, Roles.ofJson?_names, hv, hs]
  rfl

/-! ## Classes and units -/

/-- The equations of a class are read as they were written but for numbers. -/
theorem equationsOfJson?_toJson {es : List Equation} {room : Nat}
    (hreals : ∀ e ∈ es, ∀ x ∈ e.reals, Json.ReadsBack x)
    (hdepth : (Json.array (es.map Equation.toJson)).depth ≤ room) :
    equationsOfJson? room (some (.array (es.map Equation.toJson))) =
      some (es.map Equation.erase) := by
  obtain ⟨n, rfl, hitems⟩ := Json.room_of_array hdepth
  show (es.map Equation.toJson).mapM (Equation.ofJson? n) = _
  apply mapM_map_eq_some
  intro e he
  exact Equation.ofJson?_toJson (hreals e he) (hitems _ (List.mem_map_of_mem he))

/-- **A class is read as it was written** but for numbers. -/
theorem ClassDef.ofJson?_toJson {c : ClassDef} {room : Nat}
    (hreals : ∀ x ∈ c.reals, Json.ReadsBack x) (hdepth : c.toJson.depth ≤ room) :
    ofJson? room c.toJson = some c.erase := by
  obtain ⟨hfs, hfe⟩ := List.forall_mem_append.mp hreals
  rw [List.forall_mem_flatMap] at hfs hfe
  obtain ⟨n, rfl, hfields⟩ := Json.room_of_record hdepth
  rw [List.forall_mem_cons, List.forall_mem_cons, List.forall_mem_singleton] at hfields
  obtain ⟨-, hdsymbols, hdequations⟩ := hfields
  have hsymbols := mapOfJson?_record hdsymbols fun s hs n hn => Symbol.ofJson?_toJson (hfs s hs) hn
  have hequations := equationsOfJson?_toJson hfe hdequations
  unfold ofJson?
  show (do return (⟨← some c.name, ← symbolsOfJson? n (some _), ← equationsOfJson? n (some _), 0⟩ :
    ClassDef)) = _
  rw [symbolsOfJson?, hsymbols, hequations]
  rfl

/-- **A unit is read as it was written** but for numbers. -/
theorem SourceUnit.ofJson?_toJson {u : SourceUnit} {room : Nat}
    (hreals : ∀ x ∈ u.reals, Json.ReadsBack x) (hdepth : u.toJson.depth ≤ room) :
    ofJson? room u.toJson = some u.erase := by
  rw [reals, List.forall_mem_flatMap] at hreals
  obtain ⟨n, rfl, hfields⟩ := Json.room_of_record hdepth
  have hclasses := mapOfJson?_record (hfields _ List.mem_cons_self)
    fun c hc n hn => ClassDef.ofJson?_toJson (hreals c hc) hn
  unfold ofJson?
  show (do return (⟨← mapOfJson? ClassDef.ofJson? n _, 0⟩ : SourceUnit)) = _
  rw [hclasses]
  rfl

namespace SourceUnit

/-- Where the JSON of a unit is read as the unit but for numbers, its text is loaded as the unit,
numbered. -/
theorem load?_of_read {u : SourceUnit} (h : ofJson? Json.maxDepth u.toJson = some u.erase) :
    load? u.text = some u.numbered := by
  rw [load?, read?, text, Json.parse?_compact u.isText_toJson, Option.bind_some, h, Option.map_some,
    numbered_erase]

/-- The text of a unit with short literals is loaded as the unit, numbered. -/
theorem load?_of_short {u : SourceUnit} (hshort : ∀ x ∈ u.reals, Json.IsShort x)
    (hdepth : u.toJson.depth ≤ Json.maxDepth) : load? u.text = some u.numbered :=
  load?_of_read (ofJson?_toJson (fun x hx => (hshort x hx).readsBack) hdepth)

/-- **Loading undoes writing.** If the real literals of a unit are finite, with numerals that are read as
the same doubles, and its text does not nest too deeply to be read, the text is loaded as the unit
with its nodes numbered, and numbering changes nothing else. -/
theorem load?_text {u : SourceUnit} (hreals : ∀ x ∈ u.reals, Json.ReadsBack x)
    (hdepth : u.toJson.depth ≤ Json.maxDepth) :
    load? u.text = some u.numbered ∧ u.numbered.erase = u.erase := by
  exact ⟨load?_of_read (ofJson?_toJson hreals hdepth), u.erase_numbered⟩

/-- A unit with one class in which every kind of literal occurs, whole reals and a negative zero
among them, and whose nodes have numbers that no unit is given. -/
def valve : SourceUnit where
  classes := .ofList [("Valve", {
    name := "Valve"
    symbols := .ofList [
      ("flow", { name := "flow", order := 0, roles := .ofList [.output, .state],
                 start := some (.literal 5 (.real (-0.0))), id := 9 }),
      ("flow.max", { name := "flow.max", order := 1, value := some (.literal 5 (.real 1.0)) })]
    equations := [⟨.operation 7 "der" [.reference 7 "flow"],
      .operation 7 "*" [.literal 7 (.integer 1), .operation 7 "pick"
        [.literal 7 (.boolean true), .literal 7 (.string "a \"tab\"\t"), .reference 7 "flow.max"]],
      7⟩]
    id := 3 })]
  id := 12

/-- The text of the valve is loaded as the valve, its nodes numbered anew. -/
theorem load?_text_valve :
    load? valve.text = some valve.numbered ∧ valve.numbered.erase = valve.erase := by
  have hshort : ∀ x ∈ valve.reals, Json.IsShort x := by decide +kernel
  exact load?_text (fun x hx => (hshort x hx).readsBack) (by decide +kernel)

end SourceUnit

end FlatModel
