import FlatModel.NodeMap
import FlatModel.Tree.Walk

/-!
# Listing a unit

A unit printed as text close to the modelling language it was written in, for people to read.
The listing is assembled while walking: the text of a node is written down under its number when
the walk leaves it, from the texts of its children.  A child whose number has no text shows as a
question mark.

* `Operand`, `operationText`, `symbolText`, `equationText`, `classText`, `unitText` — how the texts of
  the parts of a node are put together.
* `Listing` — the texts by the numbers of their nodes; `Listing.nodeText?` makes the text of a node
  from those of its children.
* `Lister` — a listing under way, with the level the walk is at; `Lister.step` is one event.
* `SourceUnit.listing` — the texts of the nodes of a unit.
-/

namespace FlatModel

/-- The texts of the nodes by their numbers. -/
abbrev Listing := NodeMap String

namespace Listing

/-! ## Layouts -/

/-- The operators that are written between or before their operands. -/
def infixOperators : List String := ["+", "-", "*", "/", "^"]

/-- The operators that are written before a single operand. -/
def signOperators : List String := ["+", "-"]

/-- Whether an operand needs parentheses. -/
def isCompound : Expression → Bool
  | .operation _ operator operands =>
      infixOperators.contains operator && (operands.length == 1 || operands.length == 2)
  | _ => false

/-- An operand as it is written. -/
structure Operand where
  /-- The text of the expression. -/
  text : String
  /-- Whether the expression needs parentheses. -/
  compound : Bool

/-- The text of an operand, in parentheses if it is compound. -/
def Operand.enclosed (a : Operand) : String := if a.compound then "(" ++ a.text ++ ")" else a.text

/-- An operation: between two operands, before one, or as a call. -/
def operationText (operator : String) (operands : List Operand) : String :=
  let call := operator ++ "(" ++ ", ".intercalate (operands.map Operand.text) ++ ")"
  match operands with
  | [left, right] =>
      if infixOperators.contains operator then
        left.enclosed ++ " " ++ operator ++ " " ++ right.enclosed
      else call
  | [operand] => if signOperators.contains operator then operator ++ operand.enclosed else call
  | _ => call

/-- A declaration: roles, name, start value, value. -/
def symbolText (expression : Expression → String) (s : Symbol) : String :=
  String.join (s.roles.toList.map fun r => r.name ++ " ") ++ "Real " ++ s.name ++
    (match s.start with
      | some e => "(start = " ++ expression e ++ ")"
      | none => "") ++
    (match s.value with
      | some e => " = " ++ expression e
      | none => "") ++ ";"

/-- An equation on a line of its own. -/
def equationText (expression : Expression → String) (e : Equation) : String :=
  expression e.left ++ " = " ++ expression e.right ++ ";"

/-- An indented line. -/
def line (text : String) : String := "    " ++ text ++ "\n"

/-- A class with its declarations and equations. -/
def classText (declaration : Symbol → String) (equation : Equation → String) (c : ClassDef) :
    String :=
  "class " ++ c.name ++ "\n" ++
    String.join (c.symbols.values.map fun s => line (declaration s)) ++ "equation\n" ++
    String.join (c.equations.map fun e => line (equation e)) ++ "end " ++ c.name ++ ";\n"

/-- All classes of a unit. -/
def unitText (definition : ClassDef → String) (u : SourceUnit) : String :=
  String.join (u.classes.values.map fun c => definition c ++ "\n")

/-! ## Texts from a table -/

/-- The text of a node, or a question mark. -/
def textOf (l : Listing) (id : Nat) : String := (l.find? id).getD "?"

/-- An operand with the text it has in the table. -/
def operand (l : Listing) (e : Expression) : Operand := ⟨l.textOf e.id, isCompound e⟩

/-- The text of a node from the texts of its children; an expression has the text of its
content and none of its own. -/
def nodeText? (l : Listing) : Node → Option String
  | .sourceUnit u => some (unitText (fun c => l.textOf c.id) u)
  | .classDef c => some (classText (fun s => l.textOf s.id) (fun e => l.textOf e.id) c)
  | .symbol s => some (symbolText (fun e => l.textOf e.id) s)
  | .equation e => some (equationText (fun e => l.textOf e.id) e)
  | .expression _ => none
  | .content (.literal _ value) => some value.text
  | .content (.reference _ name) => some name
  | .content (.operation _ operator operands) =>
      some (operationText operator (operands.map l.operand))

/-- The listing with the text of one more node. -/
def record (l : Listing) (node : Node) : Listing :=
  match l.nodeText? node with
  | some text => l.insert node.id text
  | none => l

end Listing

/-- A listing under way. -/
structure Lister where
  /-- The number of nodes that have been entered and not been left. -/
  level : Nat := 0
  /-- The texts of the nodes that have been left. -/
  texts : Listing := .empty

/-- One event of the walk.  The level goes up and down at the ends of a visit.  It would stop at
zero, but a walk never leaves more nodes than it has entered. -/
def Lister.step (s : Lister) (event : Event) : Lister :=
  match event.hook with
  | .enterAny => { s with level := s.level + 1 }
  | .enter => s
  | .exit => { s with texts := s.texts.record event.node }
  | .exitAny => { s with level := s.level - 1 }

/-- The texts of all nodes of a unit. -/
def SourceUnit.listing (u : SourceUnit) : Listing := (u.walk.foldl Lister.step {}).texts

end FlatModel
