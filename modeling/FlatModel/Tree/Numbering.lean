import FlatModel.Tree.Basic

/-!
# Numbering the nodes

`SourceUnit.numbered` gives every node its place in the post-order of the tree, children before
parents, from zero.  Each step takes the next free number and returns the node with its number
together with the number that is free after it.
-/

namespace FlatModel

mutual

/-- Number an expression and what is under it. -/
def Expression.number : Expression → Nat → Expression × Nat
  | .literal _ value, next => (.literal next value, next + 1)
  | .reference _ name, next => (.reference next name, next + 1)
  | .operation _ operator operands, next =>
      let numbered := Expression.numberAll operands next
      (.operation numbered.2 operator numbered.1, numbered.2 + 1)

/-- Number the expressions of a list from left to right. -/
def Expression.numberAll : List Expression → Nat → List Expression × Nat
  | [], next => ([], next)
  | e :: rest, next =>
      let head := e.number next
      let tail := Expression.numberAll rest head.2
      (head.1 :: tail.1, tail.2)

end

/-- Number an expression that may be absent. -/
def Expression.numberOption : Option Expression → Nat → Option Expression × Nat
  | none, next => (none, next)
  | some e, next => (some (e.number next).1, (e.number next).2)

/-- Number both sides of an equation, then the equation. -/
def Equation.number (e : Equation) (next : Nat) : Equation × Nat :=
  let left := e.left.number next
  let right := e.right.number left.2
  (⟨left.1, right.1, right.2⟩, right.2 + 1)

/-- Number the equations of a list in order. -/
def Equation.numberAll : List Equation → Nat → List Equation × Nat
  | [], next => ([], next)
  | e :: rest, next =>
      let head := e.number next
      let tail := Equation.numberAll rest head.2
      (head.1 :: tail.1, tail.2)

/-- Number the value and the start value of a symbol, then the symbol. -/
def Symbol.number (s : Symbol) (next : Nat) : Symbol × Nat :=
  let value := Expression.numberOption s.value next
  let start := Expression.numberOption s.start value.2
  (⟨s.name, s.order, s.roles, value.1, start.1, start.2⟩, start.2 + 1)

/-- Number the symbols and the equations of a class, then the class. -/
def ClassDef.number (c : ClassDef) (next : Nat) : ClassDef × Nat :=
  let symbols := c.symbols.thread Symbol.number next
  let equations := Equation.numberAll c.equations symbols.2
  (⟨c.name, symbols.1, equations.1, equations.2⟩, equations.2 + 1)

namespace SourceUnit

/-- Number the classes of a unit, then the unit.  The second part is the number of nodes. -/
def number (u : SourceUnit) : SourceUnit × Nat :=
  let classes := u.classes.thread ClassDef.number 0
  (⟨classes.1, classes.2⟩, classes.2 + 1)

/-- The unit with its nodes numbered. -/
def numbered (u : SourceUnit) : SourceUnit := u.number.1

/-- The number of nodes of a numbered unit, whose own number is the last. -/
def nodeCount (u : SourceUnit) : Nat := u.id + 1

/-- The unit with one more class, under the class's own name, numbered anew. -/
def addClass (u : SourceUnit) (c : ClassDef) : SourceUnit :=
  ({ u with classes := u.classes.insert c.name c } : SourceUnit).numbered

end SourceUnit

end FlatModel
