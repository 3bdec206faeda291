import FlatModel.Tree.Codec
import FlatModel.Proofs.JsonRoundTrip
import FlatModel.Proofs.Numbering
import FlatModel.Proofs.ShortestDigits

/-!
# What the JSON of a tree says about it

The JSON of a node has everything of the node but its numbers, as long as its real literals are finite:
those are told apart in print, and all others are written as `null`.

* `Numeral.toInt?_ofInt`, `Layout.toInt?_numeral` — a whole number is read back as one, and no real
  number that keeps its fraction is a whole number.
* `Expression.reals`, …, `SourceUnit.reals` — the real literals of a tree.
* `Expression.isText_toJson`, …, `SourceUnit.isText_toJson` — all strings of a tree are text.
* `Expression.toJson_erase`, …, `ClassDef.toJson_erase` — numbers are not written.
* `Expression.erase_eq_of_toJson`, …, `ClassDef.erase_eq_of_toJson` — trees of one JSON differ in
  numbers only.
-/

set_option linter.unusedSectionVars false

namespace FlatModel

open Decimal

/-! ## Whole numbers and reals -/

/-- A written whole number is read back. -/
theorem Decimal.Numeral.toInt?_ofInt (n : Int) : (ofInt n).toInt? = some n := by
  rw [toInt?, ofInt, if_pos ⟨rfl, rfl⟩]
  by_cases h : n < 0
  · have hne : n.natAbs ≠ 0 := by omega
    have hneg : -(n.natAbs : Int) = n := by omega
    simp only [decide_eq_true h, if_true, if_neg hne, hneg]
  · have hnonneg : (n.natAbs : Int) = n := by omega
    simp [h, hnonneg]

section layout

variable {l : Layout} (h : l.keepsFraction = true)

include h

/-- Written without exponent, a number that keeps its fraction has one. -/
theorem Decimal.Layout.places_positional (negative : Bool) (d : Scaled) :
    (l.positional negative d).places ≠ 0 := by
  unfold positional
  by_cases hexponent : 0 ≤ d.exponent
  · simp [hexponent, h]
  · have hne : d.exponent.natAbs ≠ 0 := by omega
    simp only [if_neg hexponent]
    exact hne

/-- **A real number that keeps its fraction is no whole number in print.** -/
theorem Decimal.Layout.toInt?_numeral (x : Float) : (l.numeral x).toInt? = none := by
  have hpositional := fun d => l.places_positional h (x.toBits >>> 63 == 1) d
  have hpoint : ∀ n : Numeral, n.places ≠ 0 → n.toInt? = none := fun n hn =>
    if_neg fun hwhole => hn hwhole.1
  unfold numeral
  dsimp only
  split
  · exact hpoint _ (hpositional _)
  · split
    · exact hpoint _ (hpositional _)
    · exact if_neg fun hwhole => nomatch hwhole.2

end layout

/-- A finite real is written as a numeral. -/
theorem Json.real_eq {x : Float} (h : x.isFinite = true) :
    real x = .number (realLayout.numeral x) := if_pos h

/-- A finite real is not written as a whole number is. -/
theorem Json.real_ne_int {x : Float} (h : x.isFinite = true) (n : Int) : real x ≠ int n := by
  rw [real_eq h, int]
  intro heq
  have hread := realLayout.toInt?_numeral rfl x
  rw [Json.number.inj heq, Numeral.toInt?_ofInt] at hread
  cases hread

/-- Different finite reals are written differently. -/
theorem Json.real_inj {x y : Float} (hx : x.isFinite = true) (hy : y.isFinite = true)
    (h : real x = real y) : x = y := by
  rw [real_eq hx, real_eq hy] at h
  rw [← realLayout.toFloat_numeral hx, Json.number.inj h, realLayout.toFloat_numeral hy]

/-- Different whole numbers are written differently. -/
theorem Json.int_inj {m n : Int} (h : int m = int n) : m = n := by
  have hread := congrArg Numeral.toInt? (Json.number.inj h)
  rw [Numeral.toInt?_ofInt, Numeral.toInt?_ofInt] at hread
  exact Option.some.inj hread

/-! ## Roles -/

/-- A role has its keyword. -/
theorem Role.ofName?_name (r : Role) : ofName? r.name = some r := by
  cases r <;> decide

/-- A set of roles is the set of those listed. -/
theorem Roles.ofList_toList (s : Roles) : ofList s.toList = s := by
  obtain ⟨_ | _, _ | _, _ | _, _ | _, _ | _⟩ := s <;> rfl

/-! ## Records -/

namespace Json

variable {α : Type}

/-- A record is determined by its fields and conversely. -/
theorem record_inj {members members' : List (String × Json)} :
    record members = record members' ↔ members = members' := by
  have hinj : Function.Injective fun m : String × Json => (some m.1, m.2) := by
    rintro ⟨key, value⟩ ⟨key', value'⟩ h
    cases h
    rfl
  rw [record, record, Json.object.injEq]
  exact hinj.list_map.eq_iff

/-- An array is text if its items are. -/
theorem isText_array : ∀ {items : List Json}, (∀ item ∈ items, item.IsText) → (array items).IsText
  | [], _ => trivial
  | _ :: _, h =>
      ⟨h _ List.mem_cons_self, isText_array fun item hitem => h item (List.mem_cons_of_mem _ hitem)⟩

/-- A record is text if its fields are. -/
theorem isText_record : ∀ {members : List (String × Json)}, (∀ m ∈ members, m.2.IsText) →
    (record members).IsText
  | [], _ => trivial
  | _ :: _, h =>
      ⟨rfl, h _ List.mem_cons_self, isText_record fun m hm => h m (List.mem_cons_of_mem _ hm)⟩

end Json

/-- Two lists of one image under a function have one image under any function that tells no more of
them apart. -/
theorem map_eq_map_of_imp {α β γ : Type} {f : α → β} {g : α → γ} : ∀ {l m : List α},
    (∀ a ∈ l, ∀ b ∈ m, f a = f b → g a = g b) → l.map f = m.map f → l.map g = m.map g
  | [], [], _, _ => rfl
  | [], _ :: _, _, h => nomatch h
  | _ :: _, [], _, h => nomatch h
  | a :: l, b :: m, himp, h => by
      rw [List.map_cons, List.map_cons, List.cons.injEq] at h ⊢
      refine ⟨himp a List.mem_cons_self b List.mem_cons_self h.1, map_eq_map_of_imp ?_ h.2⟩
      exact fun a' ha b' hb => himp a' (List.mem_cons_of_mem _ ha) b' (List.mem_cons_of_mem _ hb)

/-! ## Real literals -/

/-- The number of a real literal. -/
def Literal.reals : Literal → List Float
  | .real x => [x]
  | _ => []

mutual

/-- The real literals of an expression. -/
def Expression.reals : Expression → List Float
  | .literal _ value => value.reals
  | .reference _ _ => []
  | .operation _ _ operands => Expression.realsAll operands

/-- The real literals of expressions. -/
def Expression.realsAll : List Expression → List Float
  | [] => []
  | e :: rest => e.reals ++ Expression.realsAll rest

end

/-- The real literals of an equation. -/
def Equation.reals (e : Equation) : List Float := e.left.reals ++ e.right.reals

/-- The real literals of a symbol. -/
def Symbol.reals (s : Symbol) : List Float :=
  s.value.toList.flatMap Expression.reals ++ s.start.toList.flatMap Expression.reals

/-- The real literals of a class. -/
def ClassDef.reals (c : ClassDef) : List Float :=
  c.symbols.values.flatMap Symbol.reals ++ c.equations.flatMap Equation.reals

/-- The real literals of a unit. -/
def SourceUnit.reals (u : SourceUnit) : List Float := u.classes.values.flatMap ClassDef.reals

/-! ## All strings are text -/

/-- The strings of a literal are text. -/
theorem Literal.isText_toJson (value : Literal) : value.toJson.IsText := by
  cases value with
  | real x =>
      rw [toJson, Json.real]
      split <;> trivial
  | string _ => rfl
  | boolean _ | integer _ => trivial

mutual

/-- The strings of an expression are text. -/
theorem Expression.isText_toJson : ∀ e : Expression, e.toJson.IsText
  | .literal _ value => ⟨rfl, ⟨rfl, value.isText_toJson, trivial⟩, trivial⟩
  | .reference _ _ => ⟨rfl, ⟨rfl, rfl, trivial⟩, trivial⟩
  | .operation _ _ operands =>
      ⟨rfl, ⟨rfl, rfl, rfl, Expression.allText_allToJson operands, trivial⟩, trivial⟩

/-- The strings of expressions are text. -/
theorem Expression.allText_allToJson : ∀ es : List Expression, Json.AllText (allToJson es)
  | [] => trivial
  | e :: rest => ⟨Expression.isText_toJson e, Expression.allText_allToJson rest⟩

end

/-- The strings of an equation are text. -/
theorem Equation.isText_toJson (e : Equation) : e.toJson.IsText :=
  ⟨rfl, e.left.isText_toJson, rfl, e.right.isText_toJson, trivial⟩

/-- The strings of an optional field are text. -/
theorem isText_optionalField {name : String} {e : Option Expression} :
    ∀ m ∈ optionalField name e, m.2.IsText := by
  intro m hm
  cases e with
  | none => cases hm
  | some e =>
      rw [List.mem_singleton.mp hm]
      exact e.isText_toJson

/-- The strings of a symbol are text. -/
theorem Symbol.isText_toJson (s : Symbol) : s.toJson.IsText := by
  apply Json.isText_record
  intro m hm
  simp only [List.mem_append, List.mem_cons, List.not_mem_nil, or_false, or_assoc] at hm
  rcases hm with rfl | rfl | rfl | hm | hm
  · rfl
  · trivial
  · apply Json.isText_array
    intro item hitem
    obtain ⟨r, -, rfl⟩ := List.mem_map.mp hitem
    rfl
  · exact isText_optionalField m hm
  · exact isText_optionalField m hm

/-- The strings of a class are text. -/
theorem ClassDef.isText_toJson (c : ClassDef) : c.toJson.IsText := by
  refine ⟨rfl, rfl, rfl, Json.isText_record ?_, rfl, Json.isText_array ?_, trivial⟩
  · intro m hm
    obtain ⟨p, -, rfl⟩ := List.mem_map.mp hm
    exact p.2.isText_toJson
  · intro item hitem
    obtain ⟨e, -, rfl⟩ := List.mem_map.mp hitem
    exact e.isText_toJson

/-- **The strings of a unit are text.** -/
theorem SourceUnit.isText_toJson (u : SourceUnit) : u.toJson.IsText := by
  refine ⟨rfl, Json.isText_record ?_, trivial⟩
  intro m hm
  obtain ⟨p, -, rfl⟩ := List.mem_map.mp hm
  exact p.2.isText_toJson

/-! ## Numbers are not written -/

mutual

/-- The numbers of an expression are not written. -/
theorem Expression.toJson_erase : ∀ e : Expression, e.erase.toJson = e.toJson
  | .literal _ _ => rfl
  | .reference _ _ => rfl
  | .operation _ _ operands => by
      rw [erase, toJson, toJson, Expression.allToJson_eraseAll operands]

/-- The numbers of expressions are not written. -/
theorem Expression.allToJson_eraseAll : ∀ es : List Expression,
    allToJson (eraseAll es) = allToJson es
  | [] => rfl
  | e :: rest => by
      rw [eraseAll, allToJson, allToJson, Expression.toJson_erase e,
        Expression.allToJson_eraseAll rest]

end

/-- The numbers of an equation are not written. -/
theorem Equation.toJson_erase (e : Equation) : e.erase.toJson = e.toJson := by
  rw [erase, toJson, toJson, Expression.toJson_erase, Expression.toJson_erase]

/-- The numbers of an optional field are not written. -/
theorem optionalField_erase (name : String) (e : Option Expression) :
    optionalField name (e.map Expression.erase) = optionalField name e := by
  cases e with
  | none => rfl
  | some e => rw [Option.map_some, optionalField, optionalField, e.toJson_erase]

/-- The numbers of a symbol are not written. -/
theorem Symbol.toJson_erase (s : Symbol) : s.erase.toJson = s.toJson := by
  simp only [erase, toJson, optionalField_erase]

/-- **The numbers of a class are not written.** -/
theorem ClassDef.toJson_erase (c : ClassDef) : c.erase.toJson = c.toJson := by
  simp only [erase, toJson, OrderedMap.mapValues, List.map_map, Function.comp_def,
    Symbol.toJson_erase, Equation.toJson_erase]

/-! ## The record of a symbol -/

/-- The members of the record of a symbol. -/
def Symbol.members (s : Symbol) : List (String × Json) :=
  [("name", .str s.name), ("order", .nat s.order.toNat),
    ("prefixes", .array (s.roles.toList.map fun r => .str r.name))] ++
    optionalField "value" s.value ++ optionalField "start" s.start

/-- A symbol is a record. -/
theorem Symbol.toJson_eq (s : Symbol) : s.toJson = .record s.members := rfl

/-- The value is found in the record of a symbol if there is one. -/
theorem Symbol.lookup_value (s : Symbol) :
    s.members.lookup "value" = s.value.map Expression.toJson := by
  obtain ⟨_, _, _, value, start, _⟩ := s
  cases value <;> cases start <;> simp [members, optionalField, List.lookup_cons]

/-- The start value is found in the record of a symbol if there is one. -/
theorem Symbol.lookup_start (s : Symbol) :
    s.members.lookup "start" = s.start.map Expression.toJson := by
  obtain ⟨_, _, _, value, start, _⟩ := s
  cases value <;> cases start <;> simp [members, optionalField, List.lookup_cons]

/-- Sets of roles that are written alike are one set. -/
theorem Roles.eq_of_names {r r' : Roles}
    (h : r.toList.map (fun role => Json.str role.name) =
      r'.toList.map fun role => Json.str role.name) : r = r' := by
  have hinj : Function.Injective fun role : Role => Json.str role.name := by
    intro a b hab
    have hname : a.name = b.name := Option.some.inj (Json.string.inj hab)
    have hread := a.ofName?_name
    rw [hname, b.ofName?_name] at hread
    exact (Option.some.inj hread).symm
  have hlist := hinj.list_map h
  rw [← r.ofList_toList, hlist, r'.ofList_toList]

/-- The fields that a symbol always has. -/
theorem Symbol.fields_of_members {s t : Symbol} (h : s.members = t.members) :
    s.name = t.name ∧ s.order = t.order ∧ s.roles = t.roles := by
  simp only [members, List.cons_append, List.nil_append, List.cons.injEq, Prod.mk.injEq,
    Json.str, Json.string.injEq, Option.some.injEq, Json.array.injEq] at h
  obtain ⟨⟨-, hname⟩, ⟨-, horder⟩, ⟨-, hroles⟩, -⟩ := h
  have hnat : s.order.toNat = t.order.toNat := Int.ofNat_inj.mp (Json.int_inj horder)
  exact ⟨hname, UInt64.toNat_inj.mp hnat, Roles.eq_of_names hroles⟩

/-! ## What is written determines the tree -/

/-- A finite real is written as no other literal is. -/
theorem Literal.toJson_real_ne {x : Float} (hx : x.isFinite = true) {b : Literal}
    (hb : b.reals = []) : (Literal.real x).toJson ≠ b.toJson := by
  cases b with
  | real y => cases hb
  | integer w => exact Json.real_ne_int hx w.toInt
  | boolean _ | string _ =>
      rw [toJson, toJson, Json.real_eq hx]
      exact Json.noConfusion

/-- Literals that are no reals are determined by their JSON. -/
theorem Literal.eq_of_toJson_of_reals {a b : Literal} (ha : a.reals = []) (hb : b.reals = [])
    (h : a.toJson = b.toJson) : a = b := by
  cases a with
  | real _ => cases ha
  | integer v =>
      cases b with
      | real _ => cases hb
      | integer w => exact congrArg _ (Int64.toInt_inj.mp (Json.int_inj h))
      | boolean _ | string _ => cases h
  | boolean v =>
      cases b with
      | real _ => cases hb
      | boolean w => cases h; rfl
      | integer _ | string _ => cases h
  | string v =>
      cases b with
      | real _ => cases hb
      | string w => cases h; rfl
      | boolean _ | integer _ => cases h

/-- A literal is determined by its JSON. -/
theorem Literal.eq_of_toJson {a b : Literal} (ha : ∀ x ∈ a.reals, x.isFinite = true)
    (hb : ∀ x ∈ b.reals, x.isFinite = true) (h : a.toJson = b.toJson) : a = b := by
  cases a with
  | real x =>
      have hx := ha x List.mem_cons_self
      cases b with
      | real y => exact congrArg _ (Json.real_inj hx (hb y List.mem_cons_self) h)
      | boolean _ | integer _ | string _ => exact absurd h (toJson_real_ne hx rfl)
  | boolean _ | integer _ | string _ =>
      cases b with
      | real y => exact absurd h.symm (toJson_real_ne (hb y List.mem_cons_self) rfl)
      | boolean _ | integer _ | string _ => exact eq_of_toJson_of_reals rfl rfl h

mutual

/-- An expression is determined by its JSON up to numbers. -/
theorem Expression.erase_eq_of_toJson : ∀ {e f : Expression}, (∀ x ∈ e.reals, x.isFinite = true) →
    (∀ x ∈ f.reals, x.isFinite = true) → e.toJson = f.toJson → e.erase = f.erase
  | .literal _ _, .literal _ _, he, hf, h => by
      simp only [toJson, Json.record_inj, List.cons.injEq, Prod.mk.injEq] at h
      rw [erase, erase, Literal.eq_of_toJson he hf h.1.2.1.2]
  | .reference _ _, .reference _ _, _, _, h => by
      cases h
      rfl
  | .operation _ _ operands, .operation _ _ operands', he, hf, h => by
      simp only [toJson, Json.record_inj, List.cons.injEq, Prod.mk.injEq, Json.array.injEq,
        Json.str, Json.string.injEq, Option.some.injEq] at h
      obtain ⟨⟨-, ⟨-, hoperator⟩, ⟨-, hoperands⟩, -⟩, -⟩ := h
      have herase : eraseAll operands = eraseAll operands' :=
        Expression.eraseAll_eq_of_allToJson he hf hoperands
      rw [erase, erase, hoperator, herase]
  | .literal _ _, .reference _ _, _, _, h | .literal _ _, .operation _ _ _, _, _, h
  | .reference _ _, .literal _ _, _, _, h | .reference _ _, .operation _ _ _, _, _, h
  | .operation _ _ _, .literal _ _, _, _, h | .operation _ _ _, .reference _ _, _, _, h => by
      simp [toJson, Json.record_inj] at h

/-- Expressions are determined by their JSON up to numbers. -/
theorem Expression.eraseAll_eq_of_allToJson : ∀ {es fs : List Expression},
    (∀ x ∈ realsAll es, x.isFinite = true) → (∀ x ∈ realsAll fs, x.isFinite = true) → allToJson es = allToJson fs →
      eraseAll es = eraseAll fs
  | [], [], _, _, _ => rfl
  | [], _ :: _, _, _, h => nomatch h
  | _ :: _, [], _, _, h => nomatch h
  | e :: es, f :: fs, he, hf, h => by
      obtain ⟨he, hes⟩ := List.forall_mem_append.mp he
      obtain ⟨hf, hfs⟩ := List.forall_mem_append.mp hf
      rw [allToJson, allToJson, List.cons.injEq] at h
      rw [eraseAll, eraseAll, Expression.erase_eq_of_toJson he hf h.1,
        Expression.eraseAll_eq_of_allToJson hes hfs h.2]

end

/-- An optional expression is determined by its JSON up to numbers. -/
theorem Expression.map_erase_eq_of_toJson {e f : Option Expression}
    (he : ∀ x ∈ e.toList.flatMap reals, x.isFinite = true) (hf : ∀ x ∈ f.toList.flatMap reals, x.isFinite = true)
    (h : e.map toJson = f.map toJson) : e.map erase = f.map erase := by
  cases e with
  | none =>
      cases f with
      | none => rfl
      | some f => cases h
  | some e =>
      cases f with
      | none => cases h
      | some f =>
          rw [Option.toList_some, List.flatMap_singleton] at he hf
          exact congrArg some (erase_eq_of_toJson he hf (Option.some.inj h))

/-- An equation is determined by its JSON up to numbers. -/
theorem Equation.erase_eq_of_toJson {e f : Equation} (he : ∀ x ∈ e.reals, x.isFinite = true)
    (hf : ∀ x ∈ f.reals, x.isFinite = true) (h : e.toJson = f.toJson) : e.erase = f.erase := by
  simp only [toJson, Json.record_inj, List.cons.injEq, Prod.mk.injEq] at h
  obtain ⟨hel, her⟩ := List.forall_mem_append.mp he
  obtain ⟨hfl, hfr⟩ := List.forall_mem_append.mp hf
  rw [erase, erase, Expression.erase_eq_of_toJson hel hfl h.1.2,
    Expression.erase_eq_of_toJson her hfr h.2.1.2]

/-- A symbol is determined by its JSON up to numbers. -/
theorem Symbol.erase_eq_of_toJson {s t : Symbol} (hs : ∀ x ∈ s.reals, x.isFinite = true)
    (ht : ∀ x ∈ t.reals, x.isFinite = true) (h : s.toJson = t.toJson) : s.erase = t.erase := by
  rw [s.toJson_eq, t.toJson_eq, Json.record_inj] at h
  obtain ⟨hname, horder, hroles⟩ := fields_of_members h
  obtain ⟨hsv, hss⟩ := List.forall_mem_append.mp hs
  obtain ⟨htv, hts⟩ := List.forall_mem_append.mp ht
  have hvalue : s.value.map Expression.erase = t.value.map Expression.erase := by
    apply Expression.map_erase_eq_of_toJson hsv htv
    rw [← s.lookup_value, ← t.lookup_value, h]
  have hstart : s.start.map Expression.erase = t.start.map Expression.erase := by
    apply Expression.map_erase_eq_of_toJson hss hts
    rw [← s.lookup_start, ← t.lookup_start, h]
  rw [erase, erase, hname, horder, hroles, hvalue, hstart]

/-- **A class is determined by its JSON** up to numbers. -/
theorem ClassDef.erase_eq_of_toJson {c d : ClassDef} (hc : ∀ x ∈ c.reals, x.isFinite = true)
    (hd : ∀ x ∈ d.reals, x.isFinite = true) (h : c.toJson = d.toJson) : c.erase = d.erase := by
  simp only [toJson, Json.record_inj, List.cons.injEq, Prod.mk.injEq, Json.str, Json.string.injEq,
    Option.some.injEq, Json.array.injEq] at h
  obtain ⟨⟨-, hname⟩, ⟨-, hsymbols⟩, ⟨-, hequations⟩, -⟩ := h
  obtain ⟨hcs, hce⟩ := List.forall_mem_append.mp hc
  obtain ⟨hds, hde⟩ := List.forall_mem_append.mp hd
  rw [List.forall_mem_flatMap] at hcs hce hds hde
  rw [OrderedMap.values, List.forall_mem_map] at hcs hds
  have hentries : c.symbols.mapValues Symbol.erase = d.symbols.mapValues Symbol.erase := by
    apply OrderedMap.ext_entries
    refine map_eq_map_of_imp ?_ hsymbols
    rintro ⟨key, s⟩ hs ⟨key', t⟩ ht heq
    obtain ⟨hkey, hjson⟩ := Prod.mk.inj heq
    exact Prod.ext hkey
      (Symbol.erase_eq_of_toJson (hcs _ hs) (hds _ ht) hjson)
  have hlist : c.equations.map Equation.erase = d.equations.map Equation.erase := by
    refine map_eq_map_of_imp ?_ hequations
    intro e he f hf heq
    exact Equation.erase_eq_of_toJson (hce e he) (hde f hf) heq
  rw [erase, erase, hname, hentries, hlist]

end FlatModel
