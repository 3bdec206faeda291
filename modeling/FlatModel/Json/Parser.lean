import FlatModel.Json.Token

/-!
# Reading JSON

* `State`, `State.step` — a machine that reads tokens and keeps a stack of open containers, so a
  text may nest as deeply as it likes; limits on depth are for those who interpret the value.
* `Json.ofTokens?`, `Json.parse?` — exactly one value, with blanks around it.
-/

namespace FlatModel.Json

/-- A container that is still open around the value being read. -/
inductive Frame where
  /-- An array with the items before, last first. -/
  | array (done : List Json)
  /-- An object with the members before, last first, and the name the value belongs to. -/
  | object (done : List (Option String × Json)) (name : Option String)

/-- What may come next. -/
inductive State where
  /-- A value. -/
  | value (stack : List Frame)
  /-- The first item of an array, or its end. -/
  | firstItem (stack : List Frame)
  /-- The first name of an object, or its end. -/
  | firstName (stack : List Frame)
  /-- A further name of an object. -/
  | name (done : List (Option String × Json)) (stack : List Frame)
  /-- The colon after a name. -/
  | colon (done : List (Option String × Json)) (name : Option String) (stack : List Frame)
  /-- A separator or closing mark after a value, or the end of the text. -/
  | after (value : Json) (stack : List Frame)

namespace State

/-- One step where a value is expected. -/
def stepValue (stack : List Frame) : Token → Option State
  | .null => some (.after .null stack)
  | .bool b => some (.after (.bool b) stack)
  | .number n => some (.after (.number n) stack)
  | .string s => some (.after (.string s) stack)
  | .openBracket => some (.firstItem stack)
  | .openBrace => some (.firstName stack)
  | _ => none

/-- One step after a value, according to the container around it. -/
def stepAfter (item : Json) : List Frame → Token → Option State
  | .array done :: stack, .comma => some (.value (.array (item :: done) :: stack))
  | .array done :: stack, .closeBracket => some (.after (.array (item :: done).reverse) stack)
  | .object done label :: stack, .comma => some (.name ((label, item) :: done) stack)
  | .object done label :: stack, .closeBrace =>
      some (.after (.object ((label, item) :: done).reverse) stack)
  | _, _ => none

/-- One step of the machine. -/
def step : State → Token → Option State
  | .value stack, t => stepValue stack t
  | .firstItem stack, .closeBracket => some (.after (.array []) stack)
  | .firstItem stack, t => stepValue (.array [] :: stack) t
  | .firstName stack, .closeBrace => some (.after (.object []) stack)
  | .firstName stack, .string s => some (.colon [] s stack)
  | .firstName _, _ => none
  | .name done stack, .string s => some (.colon done s stack)
  | .name _ _, _ => none
  | .colon done s stack, .colon => some (.value (.object done s :: stack))
  | .colon _ _ _, _ => none
  | .after item stack, t => stepAfter item stack t

/-- The state after a row of tokens. -/
def run : State → List Token → Option State
  | s, [] => some s
  | s, t :: ts =>
      match s.step t with
      | some s' => s'.run ts
      | none => none

/-- The value read once nothing is open any more. -/
def result? : State → Option Json
  | .after item [] => some item
  | _ => none

end State

/-- The value of a row of tokens. -/
def ofTokens? (tokens : List Token) : Option Json :=
  (State.run (.value []) tokens).bind State.result?

/-- The value of a text. -/
def parse? (text : String) : Option Json := (Token.ofChars? text.toList).bind ofTokens?

end FlatModel.Json
