import FlatModel.Decimal.MachineWord
import FlatModel.Tree.Numbering
import FlatModel.Json.Parser
import FlatModel.Json.Printer
import FlatModel.Json.Record

/-!
# Flat units as JSON

* `SourceUnit.toJson` and its kin — every part of a unit as a record with its fields in a fixed
  order; absent values are left out and numbers of nodes are not written.
* `SourceUnit.ofJson?` and its kin — they read what is written, and all that a record may look like
  otherwise (`FlatModel.Json.Record`).
* `SourceUnit.load?` — the whole way from text to a numbered unit.
-/

namespace FlatModel

/-! ## Writing -/

/-- A literal is written as the JSON value of its kind. -/
def Literal.toJson : Literal → Json
  | .boolean v => .bool v
  | .integer v => .int v.toInt
  | .real v => .real v
  | .string v => .str v

mutual

/-- An expression is an object whose only name says which kind it is. -/
def Expression.toJson : Expression → Json
  | .literal _ value => .record [("primary", .record [("value", value.toJson)])]
  | .reference _ name => .record [("component_reference", .record [("name", .str name)])]
  | .operation _ operator operands =>
      .record [("operation", .record [("operator", .str operator),
        ("operands", .array (Expression.allToJson operands))])]

/-- The expressions of a list. -/
def Expression.allToJson : List Expression → List Json
  | [] => []
  | e :: rest => e.toJson :: Expression.allToJson rest

end

/-- An equation is a record of its sides. -/
def Equation.toJson (e : Equation) : Json :=
  .record [("left", e.left.toJson), ("right", e.right.toJson)]

/-- A field that is left out if its value is absent. -/
def optionalField (name : String) : Option Expression → List (String × Json)
  | none => []
  | some e => [(name, e.toJson)]

/-- A symbol is a record; absent values are left out. -/
def Symbol.toJson (s : Symbol) : Json :=
  .record ([("name", .str s.name), ("order", .nat s.order.toNat),
      ("prefixes", .array (s.roles.toList.map fun r => .str r.name))] ++
    optionalField "value" s.value ++ optionalField "start" s.start)

/-- A class is a record. -/
def ClassDef.toJson (c : ClassDef) : Json :=
  .record [("name", .str c.name),
    ("symbols", .record (c.symbols.entries.map fun p => (p.1, p.2.toJson))),
    ("equations", .array (c.equations.map Equation.toJson))]

/-- A unit is a record. -/
def SourceUnit.toJson (u : SourceUnit) : Json :=
  .record [("classes", .record (u.classes.entries.map fun p => (p.1, p.2.toJson)))]

/-! ## Reading

`room` is the number of containers that may be nested from here on. -/

/-- An integer that fits is an integer, every other number a real unless it is too large for one. -/
def Literal.ofJson? : Json → Option Literal
  | .bool v => some (.boolean v)
  | .number n =>
      match n.toInt?.filter fun i =>
          Int64.minValue.toInt ≤ i && i ≤ Int64.maxValue.toInt with
      | some i => some (.integer (.ofInt i))
      | none => n.machineFloat?.map .real
  | .string (some v) => some (.string v)
  | _ => none

/-- The record of a literal. -/
def Literal.ofRecord? (room : Nat) (j : Json) : Option Literal :=
  match room, j.fields? ["value"] with
  | _ + 1, some [some value] => Literal.ofJson? value
  | _, _ => none

/-- The record of a reference. -/
def referenceOfRecord? (room : Nat) (j : Json) : Option String :=
  match room, j.fields? ["name"] with
  | _ + 1, some [some name] => name.text?
  | _, _ => none

/-- An expression. -/
def Expression.ofJson? : Nat → Json → Option Expression
  | room + 1, .object [(some "primary", body)] =>
      (Literal.ofRecord? room body).map Expression.ofLiteral
  | room + 1, .object [(some "component_reference", body)] =>
      (referenceOfRecord? room body).map Expression.ref
  | room + 2, .object [(some "operation", body)] =>
      match body.fields? ["operator", "operands"] with
      | some [some operator, none] => operator.text?.map fun name => .apply name []
      | some [some operator, some operands] =>
          match room with
          | room + 1 => do
              let name ← operator.text?
              let items ← operands.items?
              let operands ← items.mapM (Expression.ofJson? room)
              return .apply name operands
          | 0 => none
      | _ => none
  | _, _ => none

/-- An equation. -/
def Equation.ofJson? (room : Nat) (j : Json) : Option Equation :=
  match room, j.fields? ["left", "right"] with
  | room + 1, some [some left, some right] => do
      return ⟨← Expression.ofJson? room left, ← Expression.ofJson? room right, 0⟩
  | _, _ => none

/-- A role is its keyword, which may be dressed as an object with the value `null`. -/
def Role.ofJson? (room : Nat) : Json → Option Role
  | .string (some name) => Role.ofName? name
  | .object [(some name, .null)] => if room = 0 then none else Role.ofName? name
  | _ => none

/-- A set of roles; left out it is empty. -/
def Roles.ofJson? : Nat → Option Json → Option Roles
  | _, none => some .empty
  | room + 1, some j => do
      let items ← j.items?
      let roles ← items.mapM (Role.ofJson? room)
      return .ofList roles
  | 0, some _ => none

/-- A whole number that an order of declaration can be. -/
def orderOfJson? : Json → Option UInt64
  | .number n =>
      match n.toInt? with
      | some i => if 0 ≤ i ∧ i.toNat < UInt64.size then some (.ofNat i.toNat) else none
      | none => none
  | _ => none

/-- An expression that may be absent: left out or `null`. -/
def optionalOfJson? (room : Nat) : Option Json → Option (Option Expression)
  | none => some none
  | some .null => some none
  | some j => (Expression.ofJson? room j).map some

/-- A symbol. -/
def Symbol.ofJson? (room : Nat) (j : Json) : Option Symbol :=
  match room, j.fields? ["name", "order", "prefixes", "value", "start"] with
  | room + 1, some [some name, some order, roles, value, start] => do
      return {
        name := ← name.text?
        order := ← orderOfJson? order
        roles := ← Roles.ofJson? room roles
        value := ← optionalOfJson? room value
        start := ← optionalOfJson? room start }
  | _, _ => none

/-- A map whose values are read by `read`; of a repeated name the last value counts. -/
def mapOfJson? {α : Type} (read : Nat → Json → Option α) : Nat → Json → Option (OrderedMap α)
  | room + 1, j => do
      let entries ← j.entries?
      let pairs ← entries.mapM fun p => (read room p.2).map fun value => (p.1, value)
      return .ofList pairs
  | 0, _ => none

/-- The symbols of a class; left out there are none. -/
def symbolsOfJson? (room : Nat) : Option Json → Option (OrderedMap Symbol)
  | none => some .empty
  | some j => mapOfJson? Symbol.ofJson? room j

/-- The equations of a class; left out there are none. -/
def equationsOfJson? : Nat → Option Json → Option (List Equation)
  | _, none => some []
  | room + 1, some j => do
      let items ← j.items?
      items.mapM (Equation.ofJson? room)
  | 0, some _ => none

/-- A class. -/
def ClassDef.ofJson? (room : Nat) (j : Json) : Option ClassDef :=
  match room, j.fields? ["name", "symbols", "equations"] with
  | room + 1, some [some name, symbols, equations] => do
      return {
        name := ← name.text?
        symbols := ← symbolsOfJson? room symbols
        equations := ← equationsOfJson? room equations }
  | _, _ => none

/-- A unit. -/
def SourceUnit.ofJson? (room : Nat) (j : Json) : Option SourceUnit :=
  match room, j.fields? ["classes"] with
  | room + 1, some [some classes] => do
      return { classes := ← mapOfJson? ClassDef.ofJson? room classes }
  | _, _ => none

/-! ## Text -/

namespace SourceUnit

/-- The unit as JSON text without blanks. -/
def text (u : SourceUnit) : String := u.toJson.compact

/-- A unit from JSON text, its nodes not yet numbered. -/
def read? (text : String) : Option SourceUnit :=
  (Json.parse? text).bind (SourceUnit.ofJson? Json.maxDepth)

/-- A numbered unit from JSON text. -/
def load? (text : String) : Option SourceUnit := (read? text).map numbered

end SourceUnit

end FlatModel
