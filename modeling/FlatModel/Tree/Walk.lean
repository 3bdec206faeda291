import FlatModel.Tree.Basic

/-!
# Walking a tree

A walk visits every node of a tree from left to right, children between the entry into their
parent and the exit from it.  It is a list of events; whoever wants to act on a tree folds over
the events.

* `Node` — a node with all that is under it; `Node.children` are the nodes directly under it.
* `Event` — one of the four moments of a visit, with the number of the node around it.
* `Event.around` — the events of a visit, those of the children in the middle.
* `SourceUnit.walk` — the walk through a unit.

An expression is visited twice over: as an expression, and inside that as the literal, reference
or operation it is.  Both visits have the same number, and the second has it as parent too.
-/

namespace FlatModel

/-- The kinds of nodes a walk visits. -/
inductive NodeKind where
  /-- A unit. -/
  | sourceUnit
  /-- A class. -/
  | classDef
  /-- A symbol. -/
  | symbol
  /-- An equation. -/
  | equation
  /-- An expression of any kind. -/
  | expression
  /-- An operation. -/
  | operation
  /-- A literal. -/
  | literal
  /-- A reference. -/
  | reference
  deriving DecidableEq, Repr

/-- A node of a tree with all that is under it. -/
inductive Node where
  /-- A unit. -/
  | sourceUnit (u : SourceUnit)
  /-- A class. -/
  | classDef (c : ClassDef)
  /-- A symbol. -/
  | symbol (s : Symbol)
  /-- An equation. -/
  | equation (e : Equation)
  /-- An expression as such. -/
  | expression (e : Expression)
  /-- The literal, reference or operation that an expression is. -/
  | content (e : Expression)
  deriving Inhabited

namespace Node

/-- The kind of a node. -/
def kind : Node → NodeKind
  | .sourceUnit _ => .sourceUnit
  | .classDef _ => .classDef
  | .symbol _ => .symbol
  | .equation _ => .equation
  | .expression _ => .expression
  | .content (.literal ..) => .literal
  | .content (.reference ..) => .reference
  | .content (.operation ..) => .operation

/-- The number of a node. -/
def id : Node → Nat
  | .sourceUnit u => u.id
  | .classDef c => c.id
  | .symbol s => s.id
  | .equation e => e.id
  | .expression e => e.id
  | .content e => e.id

/-- The nodes directly under a node, from left to right. -/
def children : Node → List Node
  | .sourceUnit u => u.classes.values.map .classDef
  | .classDef c => c.symbols.values.map .symbol ++ c.equations.map .equation
  | .symbol s => s.value.toList.map .expression ++ s.start.toList.map .expression
  | .equation e => [.expression e.left, .expression e.right]
  | .expression e => [.content e]
  | .content (.operation _ _ operands) => operands.map .expression
  | .content _ => []

end Node

/-- The four moments of a visit, from the outside in and out again. -/
inductive Hook where
  /-- Before all else. -/
  | enterAny
  /-- Just before the children. -/
  | enter
  /-- Just after the children. -/
  | exit
  /-- After all else. -/
  | exitAny
  deriving DecidableEq, Repr

/-- One moment of a walk. -/
structure Event where
  /-- Which moment of the visit. -/
  hook : Hook
  /-- The node visited. -/
  node : Node
  /-- The number of the node around it. -/
  parent : Option Nat

/-- The events of a visit around those of the children. -/
def Event.around (node : Node) (parent : Option Nat) (inner : List Event) : List Event :=
  ⟨.enterAny, node, parent⟩ :: ⟨.enter, node, parent⟩ ::
    (inner ++ [⟨.exit, node, parent⟩, ⟨.exitAny, node, parent⟩])

mutual

/-- The walk through an expression. -/
def Expression.walk (parent : Option Nat) : Expression → List Event
  | .literal id value =>
      Event.around (.expression (.literal id value)) parent
        (Event.around (.content (.literal id value)) (some id) [])
  | .reference id name =>
      Event.around (.expression (.reference id name)) parent
        (Event.around (.content (.reference id name)) (some id) [])
  | .operation id operator operands =>
      Event.around (.expression (.operation id operator operands)) parent
        (Event.around (.content (.operation id operator operands)) (some id)
          (Expression.walkAll (some id) operands))

/-- The walk through the expressions of a list. -/
def Expression.walkAll (parent : Option Nat) : List Expression → List Event
  | [] => []
  | e :: rest => e.walk parent ++ Expression.walkAll parent rest

end

/-- The walk through a symbol: the value before the start value. -/
def Symbol.walk (parent : Option Nat) (s : Symbol) : List Event :=
  Event.around (.symbol s) parent
    (Expression.walkAll (some s.id) (s.value.toList ++ s.start.toList))

/-- The walk through an equation: the left side before the right side. -/
def Equation.walk (parent : Option Nat) (e : Equation) : List Event :=
  Event.around (.equation e) parent (e.left.walk (some e.id) ++ e.right.walk (some e.id))

/-- The walk through a class: the symbols before the equations. -/
def ClassDef.walk (parent : Option Nat) (c : ClassDef) : List Event :=
  Event.around (.classDef c) parent
    (c.symbols.values.flatMap (Symbol.walk (some c.id)) ++
      c.equations.flatMap (Equation.walk (some c.id)))

/-- The walk through a unit. -/
def SourceUnit.walk (u : SourceUnit) : List Event :=
  Event.around (.sourceUnit u) none (u.classes.values.flatMap (ClassDef.walk (some u.id)))

end FlatModel
