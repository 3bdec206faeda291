import FlatModel.Json.Value

/-!
# Records in JSON

How a value is taken apart by a reader that knows what it expects.  A record is an object with
known names or an array of the fields in their order; names a record does not know are passed
over, known names must not repeat.  A map is an object whose names are free.

Readers count how many containers may still be nested inside the one they enter (`room`), and
refuse what lies deeper.  Values they pass over are not counted.
-/

namespace FlatModel.Json

/-- How deep the containers of a text that is read may be nested. -/
def maxDepth : Nat := 127

/-- The values of the members with a name. -/
def membersNamed (name : String) (members : List (Option String × Json)) : List Json :=
  (members.filter fun m => m.1 == some name).map Prod.snd

/-- The value of a member that occurs at most once: refused if it occurs more often. -/
def member? (members : List (Option String × Json)) (name : String) : Option (Option Json) :=
  match membersNamed name members with
  | [] => some none
  | [value] => some (some value)
  | _ => none

/-- The fields of a record in the order of `names`, each `none` if it is left out.  An object may
hold further members; an array may stop early but holds nothing more. -/
def fields? (names : List String) : Json → Option (List (Option Json))
  | .object members =>
      if members.all fun m => m.1.isSome then names.mapM (member? members) else none
  | .array items =>
      if items.length ≤ names.length then
        some (items.map some ++ List.replicate (names.length - items.length) none)
      else none
  | _ => none

/-- The entries of a map in order, repeated names included. -/
def entries? : Json → Option (List (String × Json))
  | .object members => members.mapM fun m => m.1.map fun name => (name, m.2)
  | _ => none

/-- The items of a list. -/
def items? : Json → Option (List Json)
  | .array items => some items
  | _ => none

/-- The text of a string. -/
def text? : Json → Option String
  | .string s => s
  | _ => none

end FlatModel.Json
