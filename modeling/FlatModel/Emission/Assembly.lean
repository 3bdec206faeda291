import FlatModel.Emission.Document
import FlatModel.Emission.Fragment
import FlatModel.NodeMap
import FlatModel.Tree.Digest
import FlatModel.Tree.Walk

/-!
# Assembling a document in one walk

* `Assembly` — what is known in the middle of a walk: the fragments, the models, the class
  around the current node, and the faults so far, which do not stop the walk.
* `Assembly.step` — one event: on leaving a node its fragment is made from those of its children,
  on leaving a class its model is built, on leaving the unit the document is complete.
* `Assembly.run` — the whole walk over a unit with the numbers its nodes have.
* `build` — the unit numbered first, so that every node has a number of its own, then walked; the
  first fault is reported.
-/

namespace FlatModel.Emission

/-- The class that is being walked: its name and the names of its symbols. -/
structure Scope where
  /-- The name of the class. -/
  name : String
  /-- The names that may be referred to. -/
  symbols : List String

/-- An assembly under way. -/
structure Assembly where
  /-- The fragments so far. -/
  table : FragmentTable
  /-- The models so far, by the numbers of their classes. -/
  models : NodeMap ModelDoc
  /-- The document, once the unit has been left. -/
  unit : Option UnitDoc
  /-- The faults so far. -/
  errors : List EmissionError
  /-- The digest that goes into the document. -/
  sourceDigest : String
  /-- The class around the current node. -/
  scope : Option Scope

namespace Assembly

/-- An assembly that has not begun, with room for so many nodes. -/
def start (capacity : Nat) (sourceDigest : String) : Assembly where
  table := .withCapacity capacity
  models := .empty
  unit := none
  errors := []
  sourceDigest := sourceDigest
  scope := none

/-- Note a fault. -/
def fail (t : Assembly) (e : EmissionError) : Assembly := { t with errors := t.errors ++ [e] }

/-- Store the fragment of a node; a second one is a fault. -/
def emit (t : Assembly) (id : Nat) (text : String) : Assembly :=
  match t.table.insert? id text with
  | some table => { t with table := table }
  | none => t.fail (.secondFragment id)

/-- The fragment of a node; without one the text is empty, which is a fault. -/
def take (t : Assembly) (id : Nat) : String × Assembly :=
  match t.table.get? id with
  | some text => (text, t)
  | none => ("", t.fail (.missingFragment id))

/-- The fragments of several nodes from left to right. -/
def takeAll (t : Assembly) : List Nat → List String × Assembly
  | [] => ([], t)
  | id :: rest =>
      let head := t.take id
      let tail := head.2.takeAll rest
      (head.1 :: tail.1, tail.2)

/-- Check that a name is known in the class around it. -/
def resolve (t : Assembly) (name : String) : Assembly :=
  match t.scope with
  | some scope =>
      if scope.symbols.contains name then t else t.fail (.unresolvedReference scope.name name)
  | none => t

/-- The models of the classes of a unit, in order of the names the classes are stored under. -/
def modelsOf (t : Assembly) (u : SourceUnit) : List ModelDoc :=
  (u.classes.sortedBy fun p q => p.1 ≤ q.1).values.filterMap fun c => t.models.find? c.id

/-- On entering a class its symbols come into scope. -/
def enter (t : Assembly) : Node → Assembly
  | .classDef c => { t with scope := some ⟨c.name, c.symbols.keys⟩ }
  | _ => t

/-- On leaving a node its part of the document is made. -/
def leave (t : Assembly) : Node → Assembly
  | .sourceUnit u => { t with unit := some ⟨t.sourceDigest, t.modelsOf u⟩ }
  | .classDef c =>
      match ModelDoc.build c t.table with
      | .ok model => { t with models := t.models.insert c.id model, scope := none }
      | .error e => { t.fail e with scope := none }
  | .symbol s => t.emit s.id (Identifier.sanitize s.name)
  | .equation e =>
      let left := t.take e.left.id
      let right := left.2.take e.right.id
      right.2.emit e.id (renderEquation left.1 right.1)
  | .expression _ => t
  | .content (.literal id value) => t.emit id value.text
  | .content (.reference id name) => (t.resolve name).emit id (Identifier.sanitize name)
  | .content (.operation id operator operands) =>
      let texts := t.takeAll (operands.map Expression.id)
      texts.2.emit id (renderOperation operator texts.1)

/-- One event of the walk. -/
def step (t : Assembly) (event : Event) : Assembly :=
  match event.hook with
  | .enter => t.enter event.node
  | .exit => t.leave event.node
  | .enterAny => t
  | .exitAny => t

/-- The assembly over a unit with the numbers its nodes have. -/
def run (capacity : Nat) (sourceDigest : String) (u : SourceUnit) : Assembly :=
  u.walk.foldl step (start capacity sourceDigest)

end Assembly

/-- The document of a unit and the fragments of its nodes, or the first fault. -/
def build (u : SourceUnit) : Except EmissionError (UnitDoc × FragmentTable) :=
  let numbered := u.numbered
  let t := Assembly.run numbered.nodeCount numbered.digest numbered
  match t.errors, t.unit with
  | e :: _, _ => .error e
  | [], some unit => .ok (unit, t.table)
  | [], none => .error (.missingFragment numbered.id)

end FlatModel.Emission
