import FlatModel.OrderedMap
import FlatModel.Tree.Literal
import FlatModel.Tree.Role

/-!
# Flat models

A flat unit holds classes by name; a class holds symbols by name and equations between
expressions.  Nothing is nested any more: a reference names a symbol of its own class by the
dotted path it had before flattening.

Every node carries an `id`.  Fresh nodes have id zero; `SourceUnit.numbered` gives out the
numbers.  Functions that add symbols or classes replace what stands under the same name in its
place.
-/

namespace FlatModel

/-! ## Expressions -/

/-- An expression of a flat class. -/
inductive Expression where
  /-- A literal. -/
  | literal (id : Nat) (value : Literal)
  /-- A reference to a symbol of the class by its dotted name. -/
  | reference (id : Nat) (name : String)
  /-- An operator or function with its operands. -/
  | operation (id : Nat) (operator : String) (operands : List Expression)
  deriving Inhabited

namespace Expression

/-- The number of the node. -/
def id : Expression → Nat
  | .literal id _ => id
  | .reference id _ => id
  | .operation id _ _ => id

/-- A fresh literal. -/
def ofLiteral (value : Literal) : Expression := .literal 0 value

/-- A fresh reference. -/
def ref (name : String) : Expression := .reference 0 name

/-- A fresh operation. -/
def apply (operator : String) (operands : List Expression) : Expression :=
  .operation 0 operator operands

/-- A fresh time derivative. -/
def der (operand : Expression) : Expression := apply "der" [operand]

end Expression

/-- An equation: both sides have one value. -/
structure Equation where
  /-- The left side. -/
  left : Expression
  /-- The right side. -/
  right : Expression
  /-- The number of the node. -/
  id : Nat := 0
  deriving Inhabited

/-! ## Symbols -/

/-- A symbol of a class. -/
structure Symbol where
  /-- The dotted path, such as `body.v`. -/
  name : String
  /-- The place in the order of declaration. -/
  order : UInt64
  /-- The roles it plays. -/
  roles : Roles := .empty
  /-- Its declared value. -/
  value : Option Expression := none
  /-- Its value at the start. -/
  start : Option Expression := none
  /-- The number of the node. -/
  id : Nat := 0
  deriving Inhabited

namespace Symbol

/-- Whether the symbol plays a role. -/
def is (s : Symbol) (r : Role) : Bool := s.roles.contains r

/-- The declared value, or else the start value. -/
def default? (s : Symbol) : Option Expression := s.value.or s.start

end Symbol

/-! ## Classes and units -/

/-- A flat class: symbols by name and equations. -/
structure ClassDef where
  /-- The name of the class. -/
  name : String
  /-- The symbols in the order in which they were added. -/
  symbols : OrderedMap Symbol := .empty
  /-- The equations in the order in which they were added. -/
  equations : List Equation := []
  /-- The number of the node. -/
  id : Nat := 0
  deriving Inhabited

namespace ClassDef

/-- A class without symbols and equations. -/
def new (name : String) : ClassDef where name := name

/-- The class with one more symbol, under the symbol's own name. -/
def addSymbol (c : ClassDef) (s : Symbol) : ClassDef :=
  { c with symbols := c.symbols.insert s.name s }

/-- The class with one more equation at the end. -/
def addEquation (c : ClassDef) (left right : Expression) : ClassDef where
  name := c.name
  symbols := c.symbols
  equations := c.equations ++ [⟨left, right, 0⟩]
  id := c.id

end ClassDef

/-- A flat unit: classes by name. -/
structure SourceUnit where
  /-- The classes in the order in which they were added. -/
  classes : OrderedMap ClassDef := .empty
  /-- The number of the node. -/
  id : Nat := 0
  deriving Inhabited

end FlatModel
