import FlatModel.Tree.Walk
import FlatModel.Proofs.Translation

/-!
# The nodes of a tree

The nodes of a unit in post-order, an expression counted once, as the literal, reference or
operation it is.

* `Expression.nodes`, …, `SourceUnit.nodes` — the nodes under a node and the node itself at the end.
* `SourceUnit.filterMap_walk` — these are the nodes a walk leaves, in the order in which it leaves
  them.
* `Node.translation?` — the text of a node, absent for classes and units.  The slots of a tree are
  the texts of its nodes (`Expression.map_nodes`, …, `SourceUnit.map_nodes`).
* `Expression.ids_number`, …, `SourceUnit.ids_numbered` — numbering gives the nodes consecutive
  numbers in this order.
* `SourceUnit.translation?_of_mem` — in a numbered unit the slot at the number of a node is its text.
-/

namespace FlatModel

open Emission

/-! ## Nodes -/

mutual

/-- The nodes of an expression. -/
def Expression.nodes : Expression → List Node
  | .literal id value => [.content (.literal id value)]
  | .reference id name => [.content (.reference id name)]
  | .operation id operator operands =>
      Expression.nodesAll operands ++ [.content (.operation id operator operands)]

/-- The nodes of expressions. -/
def Expression.nodesAll : List Expression → List Node
  | [] => []
  | e :: rest => e.nodes ++ Expression.nodesAll rest

end

/-- An expression is a node of itself. -/
theorem Expression.content_mem_nodes (e : Expression) : .content e ∈ e.nodes := by
  cases e with
  | literal | reference => exact List.mem_cons_self
  | operation => exact List.mem_append_right _ List.mem_cons_self

/-- The nodes of an expression are among those of expressions that have it. -/
theorem Expression.mem_nodesAll {e : Expression} {node : Node} (hnode : node ∈ e.nodes)
    {es : List Expression} (he : e ∈ es) : node ∈ nodesAll es := by
  induction es with
  | nil => cases he
  | cons f rest ih =>
      rw [nodesAll, List.mem_append]
      rcases List.mem_cons.mp he with rfl | he
      · exact .inl hnode
      · exact .inr (ih he)

/-- The nodes of a symbol. -/
def Symbol.nodes (s : Symbol) : List Node := Expression.nodesAll s.expressions ++ [.symbol s]

/-- The nodes of an equation. -/
def Equation.nodes (e : Equation) : List Node :=
  Expression.nodesAll [e.left, e.right] ++ [.equation e]

/-- The nodes of a class. -/
def ClassDef.nodes (c : ClassDef) : List Node :=
  c.symbols.values.flatMap Symbol.nodes ++ c.equations.flatMap Equation.nodes ++ [.classDef c]

/-- The nodes of a unit. -/
def SourceUnit.nodes (u : SourceUnit) : List Node :=
  u.classes.values.flatMap ClassDef.nodes ++ [.sourceUnit u]

/-! ## The nodes a walk leaves -/

/-- The node that is left with an event, unless it is the outer visit of an expression. -/
def Event.left? (e : Event) : Option Node :=
  match e.hook, e.node with
  | .exitAny, .expression _ => none
  | .exitAny, node => some node
  | _, _ => none

section walk

variable (parent : Option Nat) (inner : List Event)

/-- The events of a visit: first the nodes under the node are left, then the node itself. -/
theorem filterMap_around {node : Node} (h : node.kind ≠ .expression) :
    (Event.around node parent inner).filterMap Event.left? =
      inner.filterMap Event.left? ++ [node] := by
  cases node with
  | expression e => exact absurd rfl h
  | sourceUnit | classDef | symbol | equation | content =>
      simp [Event.around, Event.left?, List.filterMap_cons]

/-- Around the inner visit of an expression there is the outer one, with which nothing is left. -/
theorem filterMap_around_content (e : Expression) (parent' : Option Nat) :
    (Event.around (.expression e) parent
        (Event.around (.content e) parent' inner)).filterMap Event.left? =
      inner.filterMap Event.left? ++ [.content e] := by
  simp [Event.around, Event.left?, List.filterMap_cons]

end walk

mutual

/-- The nodes that a walk through an expression leaves. -/
theorem Expression.filterMap_walk : ∀ (e : Expression) (parent : Option Nat),
    (e.walk parent).filterMap Event.left? = e.nodes
  | .literal _ _, _ => by simp [walk, filterMap_around_content, nodes]
  | .reference _ _, _ => by simp [walk, filterMap_around_content, nodes]
  | .operation id _ operands, _ => by
      rw [walk, filterMap_around_content, nodes,
        Expression.filterMap_walkAll operands (some id)]

/-- The nodes that a walk through expressions leaves. -/
theorem Expression.filterMap_walkAll : ∀ (es : List Expression) (parent : Option Nat),
    (walkAll parent es).filterMap Event.left? = nodesAll es
  | [], _ => rfl
  | e :: rest, parent => by
      rw [walkAll, nodesAll, List.filterMap_append, Expression.filterMap_walk e,
        Expression.filterMap_walkAll rest]

end

/-- The nodes that a walk through a symbol leaves. -/
theorem Symbol.filterMap_walk (s : Symbol) (parent : Option Nat) :
    (s.walk parent).filterMap Event.left? = s.nodes := by
  rw [walk, filterMap_around, Expression.filterMap_walkAll]
  · rfl
  · nofun

/-- The nodes that a walk through an equation leaves. -/
theorem Equation.filterMap_walk (e : Equation) (parent : Option Nat) :
    (e.walk parent).filterMap Event.left? = e.nodes := by
  rw [walk, filterMap_around]
  · simp [Expression.filterMap_walk, nodes, Expression.nodesAll]
  · nofun

/-- The nodes that a walk through a class leaves. -/
theorem ClassDef.filterMap_walk (c : ClassDef) (parent : Option Nat) :
    (c.walk parent).filterMap Event.left? = c.nodes := by
  rw [walk, filterMap_around]
  · simp [List.filterMap_flatMap, Symbol.filterMap_walk, Equation.filterMap_walk, nodes]
  · nofun

/-- **The nodes that a walk through a unit leaves.** -/
theorem SourceUnit.filterMap_walk (u : SourceUnit) : u.walk.filterMap Event.left? = u.nodes := by
  rw [walk, filterMap_around]
  · simp [List.filterMap_flatMap, ClassDef.filterMap_walk, nodes]
  · nofun

/-! ## The texts of nodes -/

/-- The text of a node; classes and units have none. -/
def Node.translation? : Node → Option String
  | .sourceUnit _ => none
  | .classDef _ => none
  | .symbol s => some (Identifier.sanitize s.name)
  | .equation e => some e.translation
  | .expression e => some e.translation
  | .content e => some e.translation

mutual

/-- The texts of the nodes of an expression. -/
theorem Expression.map_nodes : ∀ e : Expression, e.nodes.map Node.translation? = e.slots
  | .literal _ _ => rfl
  | .reference _ _ => rfl
  | .operation _ _ operands => by
      rw [nodes, slots, List.map_append, Expression.map_nodesAll operands]
      rfl

/-- The texts of the nodes of expressions. -/
theorem Expression.map_nodesAll : ∀ es : List Expression,
    (nodesAll es).map Node.translation? = slotsAll es
  | [] => rfl
  | e :: rest => by
      rw [nodesAll, slotsAll, List.map_append, Expression.map_nodes e,
        Expression.map_nodesAll rest]

end

/-- The texts of the nodes of a symbol. -/
theorem Symbol.map_nodes (s : Symbol) : s.nodes.map Node.translation? = s.slots := by
  rw [nodes, slots, List.map_append, Expression.map_nodesAll]
  rfl

/-- The texts of the nodes of an equation. -/
theorem Equation.map_nodes (e : Equation) : e.nodes.map Node.translation? = e.slots := by
  rw [nodes, slots, List.map_append, Expression.map_nodesAll]
  rfl

/-- The texts of the nodes of a class. -/
theorem ClassDef.map_nodes (c : ClassDef) : c.nodes.map Node.translation? = c.slots := by
  simp only [nodes, slots, List.map_append, List.map_flatMap, Symbol.map_nodes,
    Equation.map_nodes]
  rfl

/-- The texts of the nodes of a unit; the last node, the unit itself, has no slot. -/
theorem SourceUnit.map_nodes (u : SourceUnit) :
    u.nodes.map Node.translation? = u.slots ++ [none] := by
  simp only [nodes, slots, List.map_append, List.map_flatMap, ClassDef.map_nodes]
  rfl

/-! ## Numbers do not change texts -/

mutual

/-- The slots of an expression do not depend on numbers. -/
theorem Expression.slots_number : ∀ (e : Expression) (n : Nat), (e.number n).1.slots = e.slots
  | .literal _ _, _ => rfl
  | .reference _ _, _ => rfl
  | .operation _ _ operands, n => by
      rw [number, slots, slots, Expression.slotsAll_numberAll operands n,
        translations_numberAll]

/-- The slots of expressions do not depend on numbers. -/
theorem Expression.slotsAll_numberAll : ∀ (es : List Expression) (n : Nat),
    slotsAll (numberAll es n).1 = slotsAll es
  | [], _ => rfl
  | e :: rest, n => by
      rw [numberAll, slotsAll, slotsAll, Expression.slots_number e n,
        Expression.slotsAll_numberAll rest _]

end

/-- The slots of a symbol do not depend on numbers. -/
theorem Symbol.slots_number (s : Symbol) (n : Nat) : (s.number n).1.slots = s.slots := by
  have hexpressions : (s.number n).1.expressions = (Expression.numberAll s.expressions n).1 := by
    rw [s.expressions_number]
  rw [slots, slots, hexpressions, Expression.slotsAll_numberAll]
  rfl

/-- The slots of an equation do not depend on numbers. -/
theorem Equation.slots_number (e : Equation) (n : Nat) : (e.number n).1.slots = e.slots := by
  have hsides : [(e.number n).1.left, (e.number n).1.right] =
      (Expression.numberAll [e.left, e.right] n).1 := by
    rw [e.sides_number]
  rw [slots, slots, hsides, Expression.slotsAll_numberAll, translation_number]

/-- The slots of equations do not depend on numbers. -/
theorem Equation.slots_numberAll : ∀ (es : List Equation) (n : Nat),
    (numberAll es n).1.flatMap slots = es.flatMap slots
  | [], _ => rfl
  | e :: rest, n => by
      rw [numberAll, List.flatMap_cons, List.flatMap_cons, e.slots_number,
        Equation.slots_numberAll rest _]

/-- The slots of a class do not depend on numbers. -/
theorem ClassDef.slots_number (c : ClassDef) (n : Nat) : (c.number n).1.slots = c.slots := by
  have hsymbols := OrderedMap.flatMap_values_thread Symbol.slots_number c.symbols n
  have hequations := Equation.slots_numberAll c.equations (c.symbols.thread Symbol.number n).2
  unfold slots
  exact congrArg (· ++ [none]) (congrArg₂ (· ++ ·) hsymbols hequations)

/-- The slots of a unit do not depend on numbers. -/
theorem SourceUnit.slots_numbered (u : SourceUnit) : u.numbered.slots = u.slots :=
  OrderedMap.flatMap_values_thread ClassDef.slots_number u.classes 0

/-! ## Consecutive numbers -/

section consecutive

variable {α β γ : Type} {f : α → Nat → β × Nat} {slots : α → List γ} {nodes : β → List Node}

/-- Values of a map that each take consecutive numbers take consecutive numbers. -/
theorem OrderedMap.ids_threadEntries (hsnd : ∀ a n, (f a n).2 = n + (slots a).length)
    (hids : ∀ a n, (nodes (f a n).1).map Node.id = List.range' n (slots a).length) :
    ∀ (entries : List (String × α)) (n : Nat),
      (((threadEntries f entries n).1.map Prod.snd).flatMap nodes).map Node.id =
        List.range' n ((entries.map Prod.snd).flatMap slots).length
  | [], _ => rfl
  | (_, a) :: rest, n => by
      have ih := ids_threadEntries hsnd hids rest (f a n).2
      rw [threadEntries, List.map_cons, List.flatMap_cons, List.map_append, ih, hids, hsnd,
        List.map_cons, List.flatMap_cons, List.length_append, List.range'_append_1]

end consecutive

mutual

/-- The numbers that an expression takes. -/
theorem Expression.ids_number : ∀ (e : Expression) (n : Nat),
    (e.number n).1.nodes.map Node.id = List.range' n e.slots.length
  | .literal _ _, _ => rfl
  | .reference _ _, _ => rfl
  | .operation _ _ operands, n => by
      have hlast := Expression.numberAll_snd operands n
      rw [number, nodes, List.map_append, Expression.ids_numberAll operands n, slots,
        List.length_append, ← List.range'_append_1, ← hlast]
      rfl

/-- The numbers that expressions take. -/
theorem Expression.ids_numberAll : ∀ (es : List Expression) (n : Nat),
    (nodesAll (numberAll es n).1).map Node.id = List.range' n (slotsAll es).length
  | [], _ => rfl
  | e :: rest, n => by
      rw [numberAll, nodesAll, List.map_append, Expression.ids_number e n,
        Expression.ids_numberAll rest _, e.number_snd, slotsAll, List.length_append,
        List.range'_append_1]

end

/-- The numbers that a symbol takes. -/
theorem Symbol.ids_number (s : Symbol) (n : Nat) :
    (s.number n).1.nodes.map Node.id = List.range' n s.slots.length := by
  have hexpressions := Expression.ids_numberAll s.expressions n
  rw [s.expressions_number] at hexpressions
  rw [nodes, List.map_append, hexpressions, slots, List.length_append, ← List.range'_append_1,
    ← s.number_id]
  rfl

/-- The numbers that an equation takes. -/
theorem Equation.ids_number (e : Equation) (n : Nat) :
    (e.number n).1.nodes.map Node.id = List.range' n e.slots.length := by
  have hsides := Expression.ids_numberAll [e.left, e.right] n
  rw [e.sides_number] at hsides
  rw [nodes, List.map_append, hsides, slots, List.length_append, ← List.range'_append_1,
    ← e.number_id]
  rfl

/-- The numbers that equations take. -/
theorem Equation.ids_numberAll : ∀ (es : List Equation) (n : Nat),
    ((numberAll es n).1.flatMap nodes).map Node.id = List.range' n (es.flatMap slots).length
  | [], _ => rfl
  | e :: rest, n => by
      rw [numberAll, List.flatMap_cons, List.map_append, e.ids_number,
        Equation.ids_numberAll rest _, e.number_snd, List.flatMap_cons, List.length_append,
        List.range'_append_1]

/-- The numbers that a class takes. -/
theorem ClassDef.ids_number (c : ClassDef) (n : Nat) :
    (c.number n).1.nodes.map Node.id = List.range' n c.slots.length := by
  have hsymbols := OrderedMap.ids_threadEntries Symbol.number_snd Symbol.ids_number
    c.symbols.entries n
  have hequations := Equation.ids_numberAll c.equations (c.symbols.thread Symbol.number n).2
  have hmiddle : (c.symbols.thread Symbol.number n).2 =
      n + (c.symbols.values.flatMap Symbol.slots).length := Symbol.thread_snd c.symbols.entries n
  have hlast : (c.number n).1.id =
      n + (c.symbols.values.flatMap Symbol.slots ++ c.equations.flatMap Equation.slots).length := by
    have hid := c.number_snd n
    simp only [slots, List.length_append, List.length_singleton] at hid ⊢
    omega
  rw [nodes, List.map_append, List.map_append, slots, List.length_append, ← List.range'_append_1,
    ← hlast, List.length_append, ← List.range'_append_1, ← hmiddle]
  exact congrArg₂ (· ++ ·) (congrArg₂ (· ++ ·) hsymbols hequations) rfl

/-- The number of a numbered unit is that of its slots. -/
theorem SourceUnit.id_numbered (u : SourceUnit) : u.numbered.id = u.slots.length := by
  have hsnd := OrderedMap.threadEntries_snd (fun c n => (ClassDef.number_snd c n).2)
    u.classes.entries 0
  rw [Nat.zero_add] at hsnd
  exact hsnd

/-- **The nodes of a numbered unit have the numbers from zero on**, in post-order. -/
theorem SourceUnit.ids_numbered (u : SourceUnit) :
    u.numbered.nodes.map Node.id = List.range u.numbered.nodeCount := by
  have hclasses := OrderedMap.ids_threadEntries (fun c n => (ClassDef.number_snd c n).2)
    ClassDef.ids_number u.classes.entries 0
  rw [nodes, List.map_append, nodeCount, List.range_succ, List.range_eq_range', id_numbered]
  exact congrArg₂ (· ++ ·) hclasses (congrArg (fun id => [id]) u.id_numbered)

/-- **In a numbered unit the slot at the number of a node is its text.** -/
theorem SourceUnit.translation?_of_mem {u : SourceUnit} {node : Node}
    (h : node ∈ u.numbered.nodes) : (u.slots[node.id]?).join = node.translation? := by
  obtain ⟨i, hi⟩ := List.mem_iff_getElem?.mp h
  -- the place of the node among the nodes is its number
  have hid : (u.numbered.nodes.map Node.id)[i]? = some node.id := by
    rw [List.getElem?_map, hi]
    rfl
  rw [ids_numbered, List.getElem?_eq_some_iff] at hid
  obtain ⟨_, hid⟩ := hid
  rw [List.getElem_range] at hid
  have htext : (u.numbered.nodes.map Node.translation?)[i]? = some node.translation? := by
    rw [List.getElem?_map, hi]
    rfl
  rw [map_nodes, slots_numbered] at htext
  rw [← hid]
  rcases Nat.lt_or_ge i u.slots.length with hlt | hge
  · rw [List.getElem?_append_left hlt] at htext
    rw [htext, Option.join_some]
  · rw [List.getElem?_append_right hge] at htext
    rw [List.getElem?_eq_none hge, Option.join_none]
    exact (List.mem_singleton.mp (List.mem_of_getElem? htext)).symm

/-- Every number below the count of nodes is that of a node. -/
theorem SourceUnit.exists_mem_nodes {u : SourceUnit} {id : Nat} (h : id < u.numbered.nodeCount) :
    ∃ node ∈ u.numbered.nodes, node.id = id := by
  have hmem : id ∈ u.numbered.nodes.map Node.id := by
    rw [ids_numbered, List.mem_range]
    exact h
  exact List.mem_map.mp hmem

end FlatModel
