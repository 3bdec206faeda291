import Mathlib.Data.List.Range
import Mathlib.Logic.Relation
import FlatModel.Proofs.VisitedNodes

/-!
# The post-order of a tree

Walking through a tree and numbering it are two recursions.  Both go by the order of `Node.children`.

* `Node.induction` — what every node has if its children have it.
* `Node.walk`, `Node.walk_eq` — the walk through any node: its children are walked through in order,
  between the entry into the node and the exit from it.
* `Node.nodes`, `Node.nodes_eq`, `Node.mem_nodes_iff` — the nodes at and under a node in post-order.
* `Node.reachable_of_mem_walk` — a walk visits the node itself and what is under it.
* `Node.Consecutive` — the numbers at and under a node follow each other, the last one being its own;
  what is consecutive is so for every child (`Node.Consecutive.child`).
* `SourceUnit.numbered_postOrder` — numbers and visits of a numbered unit.
-/

namespace FlatModel

open Relation

namespace Node

/-- One node is directly under another one. -/
def HasChild (node child : Node) : Prop := child ∈ node.children

/-! ## Induction -/

section induction

variable {p : Node → Prop} (h : ∀ node : Node, (∀ child ∈ node.children, p child) → p node)

include h

mutual

/-- What every node has if its children have it, for an expression. -/
theorem induction_content : ∀ e : Expression, p (.content e)
  | .literal _ _ | .reference _ _ => h _ nofun
  | .operation _ _ operands => h _ fun child hchild => by
      obtain ⟨e, he, rfl⟩ := List.mem_map.mp hchild
      exact induction_operands operands e he

/-- What every node has if its children have it, for the operands of an operation. -/
theorem induction_operands : ∀ es : List Expression, ∀ e ∈ es, p (.expression e)
  | [], _, he => nomatch he
  | f :: rest, e, he => by
      have hf : p (.expression f) := h _ fun child hchild => by
        rw [List.mem_singleton.mp hchild]
        exact induction_content f
      rcases List.mem_cons.mp he with rfl | he
      · exact hf
      · exact induction_operands rest e he

end

/-- **What every node has if its children have it.** -/
theorem induction (node : Node) : p node := by
  have hexpression : ∀ e, p (.expression e) := fun e =>
    induction_operands h [e] e List.mem_cons_self
  have hsymbol : ∀ s, p (.symbol s) := by
    intro s
    refine h _ fun child hchild => ?_
    rcases List.mem_append.mp hchild with hchild | hchild
    · obtain ⟨e, -, rfl⟩ := List.mem_map.mp hchild
      exact hexpression e
    · obtain ⟨e, -, rfl⟩ := List.mem_map.mp hchild
      exact hexpression e
  have hequation : ∀ e, p (.equation e) := by
    intro e
    refine h _ fun child hchild => ?_
    simp only [children, List.mem_cons, List.not_mem_nil, or_false] at hchild
    rcases hchild with rfl | rfl
    · exact hexpression e.left
    · exact hexpression e.right
  have hclass : ∀ c, p (.classDef c) := by
    intro c
    refine h _ fun child hchild => ?_
    rcases List.mem_append.mp hchild with hchild | hchild
    · obtain ⟨s, -, rfl⟩ := List.mem_map.mp hchild
      exact hsymbol s
    · obtain ⟨e, -, rfl⟩ := List.mem_map.mp hchild
      exact hequation e
  cases node with
  | sourceUnit u =>
      refine h _ fun child hchild => ?_
      obtain ⟨c, -, rfl⟩ := List.mem_map.mp hchild
      exact hclass c
  | classDef c => exact hclass c
  | symbol s => exact hsymbol s
  | equation e => exact hequation e
  | expression e => exact hexpression e
  | content e => exact induction_content h e

end induction

/-! ## Walks -/

/-- The walk through a node. -/
def walk (parent : Option Nat) : Node → List Event
  | .sourceUnit u => Event.around (.sourceUnit u) parent
      (u.classes.values.flatMap (ClassDef.walk (some u.id)))
  | .classDef c => c.walk parent
  | .symbol s => s.walk parent
  | .equation e => e.walk parent
  | .expression e => e.walk parent
  | .content e => Event.around (.content e) parent
      (match e with
      | .operation id _ operands => Expression.walkAll (some id) operands
      | _ => [])

/-- The walk through expressions goes through each of them in order. -/
theorem walkAll_eq (parent : Option Nat) (es : List Expression) :
    Expression.walkAll parent es = (es.map Node.expression).flatMap (walk parent) := by
  induction es with
  | nil => rfl
  | cons e rest ih =>
      rw [Expression.walkAll, ih]
      rfl

/-- **The walk through a node** goes through its children in order, between the entry and the
exit. -/
theorem walk_eq (node : Node) (parent : Option Nat) :
    node.walk parent =
      Event.around node parent (node.children.flatMap (walk (some node.id))) := by
  cases node with
  | sourceUnit u => simp only [walk, children, id, List.flatMap_map]
  | classDef c => simp only [walk, ClassDef.walk, children, id, List.flatMap_append, List.flatMap_map]
  | symbol s =>
      simp only [walk, Symbol.walk, children, id, walkAll_eq, List.map_append]
  | equation e => simp [walk, Equation.walk, children, id]
  | expression e => cases e <;> simp [walk, Expression.walk, children, id, Expression.id]
  | content e =>
      cases e with
      | operation id operator operands => simp only [walk, children, walkAll_eq, Node.id, Expression.id]
      | literal _ _ | reference _ _ => rfl

/-- Every node that a walk through a node visits is the node itself or under it. -/
theorem reachable_of_mem_walk (node : Node) : ∀ {parent : Option Nat} {event : Event},
    event ∈ node.walk parent → ReflTransGen HasChild node event.node := by
  induction node using Node.induction with
  | h node ih =>
    intro parent event hevent
    rw [walk_eq, Event.around] at hevent
    simp only [List.mem_cons, List.mem_append, List.mem_flatMap, List.not_mem_nil, or_false] at hevent
    rcases hevent with rfl | rfl | ⟨child, hchild, hevent⟩ | rfl | rfl
    · exact .refl
    · exact .refl
    · exact .head hchild (ih child hchild hevent)
    · exact .refl
    · exact .refl

/-! ## Nodes in post-order -/

/-- The nodes at and under a node in post-order, an expression counted once. -/
def nodes : Node → List Node
  | .sourceUnit u => u.nodes
  | .classDef c => c.nodes
  | .symbol s => s.nodes
  | .equation e => e.nodes
  | .expression e => e.nodes
  | .content e => e.nodes

/-- Only the outer visits of expressions have the kind of an expression. -/
theorem kind_eq_expression_iff {node : Node} : node.kind = .expression ↔ ∃ e, node = .expression e := by
  cases node with
  | content e => cases e <;> simp [kind]
  | expression _ | sourceUnit _ | classDef _ | symbol _ | equation _ => simp [kind]

/-- The node itself, unless it is the outer visit of an expression. -/
def self : Node → List Node
  | .expression _ => []
  | node => [node]

/-- The nodes of expressions are those of each of them in order. -/
theorem nodesAll_eq (es : List Expression) :
    Expression.nodesAll es = (es.map Node.expression).flatMap nodes := by
  induction es with
  | nil => rfl
  | cons e rest ih =>
      rw [Expression.nodesAll, ih]
      rfl

/-- **The nodes at and under a node** are those under its children, in order, and the node itself at
the end. -/
theorem nodes_eq (node : Node) : node.nodes = node.children.flatMap nodes ++ node.self := by
  cases node with
  | sourceUnit u => simp only [nodes, SourceUnit.nodes, children, self, List.flatMap_map]
  | classDef c =>
      simp only [nodes, ClassDef.nodes, children, self, List.flatMap_append, List.flatMap_map]
  | symbol s =>
      simp only [nodes, Symbol.nodes, Symbol.expressions, children, self, nodesAll_eq, List.map_append]
  | equation e => simp [nodes, Equation.nodes, Expression.nodesAll, children, self]
  | expression e => simp [nodes, children, self]
  | content e =>
      cases e with
      | operation id operator operands =>
          simp only [nodes, Expression.nodes, children, self, nodesAll_eq]
      | literal _ _ | reference _ _ => rfl

/-- A node that is no outer visit of an expression is listed itself. -/
theorem self_eq {node : Node} (h : node.kind ≠ .expression) : node.self = [node] := by
  cases node with
  | expression _ => exact absurd rfl h
  | _ => rfl

/-- The node itself is listed unless it is the outer visit of an expression. -/
theorem mem_self_iff {node other : Node} :
    other ∈ node.self ↔ other = node ∧ node.kind ≠ .expression := by
  by_cases h : node.kind = .expression
  · obtain ⟨e, rfl⟩ := kind_eq_expression_iff.mp h
    simp [self, h]
  · simp [self_eq h, h]

/-- **The nodes at and under a node** are those that children lead to, outer visits of expressions
left out. -/
theorem mem_nodes_iff {node : Node} : ∀ {other : Node},
    other ∈ node.nodes ↔ ReflTransGen HasChild node other ∧ other.kind ≠ .expression := by
  induction node using Node.induction with
  | h node ih =>
    intro other
    rw [nodes_eq, List.mem_append, List.mem_flatMap, mem_self_iff]
    constructor
    · rintro (⟨child, hchild, hother⟩ | ⟨rfl, hkind⟩)
      · obtain ⟨hreach, hkind⟩ := (ih child hchild).mp hother
        exact ⟨.head hchild hreach, hkind⟩
      · exact ⟨.refl, hkind⟩
    · rintro ⟨hreach, hkind⟩
      rcases hreach.cases_head with rfl | ⟨child, hchild, hreach⟩
      · exact .inr ⟨rfl, hkind⟩
      · exact .inl ⟨child, hchild, (ih child hchild).mpr ⟨hreach, hkind⟩⟩

/-- The nodes at and under a node end with one that has its number. -/
theorem exists_nodes_eq (node : Node) :
    ∃ below last, node.nodes = below ++ [last] ∧ last.id = node.id := by
  cases node with
  | expression e =>
      refine ⟨_, .content e, nodes_eq (.content e), rfl⟩
  | sourceUnit _ | classDef _ | symbol _ | equation _ | content _ => exact ⟨_, _, nodes_eq _, rfl⟩

/-! ## Consecutive numbers -/

/-- The numbers at and under the node follow each other in post-order. -/
def Consecutive (node : Node) : Prop :=
  ∃ first, node.nodes.map id = List.range' first node.nodes.length

/-- Numbers that follow each other do so in every part of their list. -/
theorem exists_range'_of_infix {l : List Nat} {first count : Nat}
    (h : l <:+: List.range' first count) : ∃ first', l = List.range' first' l.length := by
  obtain ⟨before, after, h⟩ := h
  obtain ⟨k, -, h, -⟩ := List.range'_eq_append_iff.mp h.symm
  obtain ⟨j, -, -, h⟩ := List.range'_eq_append_iff.mp h.symm
  rw [Nat.mul_one] at h
  refine ⟨first + j, ?_⟩
  rw [h, List.length_range']

variable {node : Node}

/-- What is consecutive is so for every child. -/
theorem Consecutive.child (h : node.Consecutive) {child : Node} (hchild : child ∈ node.children) :
    child.Consecutive := by
  obtain ⟨first, h⟩ := h
  have hinfix : child.nodes <:+: node.nodes := by
    rw [nodes_eq node]
    exact (List.infix_flatMap_of_mem hchild nodes).trans (List.prefix_append _ _).isInfix
  have hids : child.nodes.map id <:+: List.range' first node.nodes.length := h ▸ hinfix.map id
  obtain ⟨first', hfirst⟩ := exists_range'_of_infix hids
  rw [List.length_map] at hfirst
  exact ⟨first', hfirst⟩

/-- What is consecutive is so for everything under it. -/
theorem Consecutive.of_reachable (h : node.Consecutive) {other : Node}
    (hother : ReflTransGen HasChild node other) : other.Consecutive := by
  induction hother with
  | refl => exact h
  | tail _ hchild ih => exact ih.child hchild

/-- The numbers of a consecutive node: they begin somewhere and end with its own. -/
theorem Consecutive.exists_first (h : node.Consecutive) :
    ∃ first ≤ node.id, node.nodes.map id = List.range' first (node.id + 1 - first) := by
  obtain ⟨first, h⟩ := h
  obtain ⟨below, last, hnodes, hlast⟩ := node.exists_nodes_eq
  have hnumber : last.id = first + below.length := by
    have hget := congrArg (fun l => l[below.length]?) h
    simpa [hnodes] using hget
  refine ⟨first, by omega, ?_⟩
  have hlength : node.nodes.length = node.id + 1 - first := by
    rw [hnodes, List.length_append, List.length_singleton]
    omega
  rw [h, hlength]

/-- A number is taken at or under a node by the node itself or by one that is no outer visit of an
expression. -/
theorem exists_reachable_iff {i : Nat} :
    (∃ other, ReflTransGen HasChild node other ∧ other.id = i) ↔ i ∈ node.nodes.map id := by
  constructor
  · rintro ⟨other, hother, rfl⟩
    -- an outer visit has the number of the inner one
    obtain ⟨below, last, hnodes, hlast⟩ := other.exists_nodes_eq
    have hmem : last ∈ other.nodes := by simp [hnodes]
    obtain ⟨hreach, hkind⟩ := mem_nodes_iff.mp hmem
    rw [← hlast]
    exact List.mem_map_of_mem (mem_nodes_iff.mpr ⟨hother.trans hreach, hkind⟩)
  · intro hi
    obtain ⟨other, hother, rfl⟩ := List.mem_map.mp hi
    exact ⟨other, (mem_nodes_iff.mp hother).1, rfl⟩

/-- **The numbers at and under a consecutive node** are an interval that ends with its own. -/
theorem Consecutive.exists_interval (h : node.Consecutive) :
    ∃ first, ∀ i, (∃ other, ReflTransGen HasChild node other ∧ other.id = i) ↔
      first ≤ i ∧ i ≤ node.id := by
  obtain ⟨first, hle, hids⟩ := h.exists_first
  refine ⟨first, fun i => ?_⟩
  rw [exists_reachable_iff, hids, List.mem_range'_1]
  omega

/-- **What is under a consecutive node has smaller numbers**, unless the node is the outer visit of an
expression. -/
theorem Consecutive.id_lt (h : node.Consecutive) (hkind : node.kind ≠ .expression) {other : Node}
    (hother : TransGen HasChild node other) : other.id < node.id := by
  obtain ⟨first, hle, hids⟩ := h.exists_first
  obtain ⟨child, hchild, hreach⟩ := TransGen.head'_iff.mp hother
  -- the numbers under the children are those before the last
  have hcount : node.id + 1 - first = node.id - first + 1 := by omega
  rw [nodes_eq, self_eq hkind, List.map_append, hcount, List.range'_concat] at hids
  have hbelow := (List.append_inj' hids rfl).1
  have hmem : other.id ∈ (node.children.flatMap nodes).map id := by
    rw [List.map_flatMap, List.mem_flatMap]
    exact ⟨child, hchild, exists_reachable_iff.mp ⟨other, hreach, rfl⟩⟩
  rw [hbelow, List.mem_range'_1] at hmem
  omega

end Node

/-! ## Numbered units -/

namespace SourceUnit

/-- A numbered unit is consecutive. -/
theorem consecutive_numbered (u : SourceUnit) : (Node.sourceUnit u.numbered).Consecutive := by
  refine ⟨0, ?_⟩
  have hids := u.ids_numbered
  have hlength := congrArg List.length hids
  rw [List.length_map, List.length_range] at hlength
  show u.numbered.nodes.map Node.id = List.range' 0 u.numbered.nodes.length
  rw [hids, hlength, List.range_eq_range']

/-- **Numbering agrees with visiting.**  Numbering a unit changes nothing but numbers and tells how
many nodes there are.  A walk through the numbered unit leaves its nodes in the order of their numbers
from zero on, if the outer visits of expressions are not counted; these have the number of the one
node inside.  The number of every node it visits is larger than those of what is under it, and the
numbers at and under it are an interval that ends with its own. -/
theorem numbered_postOrder (u : SourceUnit) :
    u.numbered.erase = u.erase ∧ u.number.2 = u.numbered.nodeCount ∧
      (u.numbered.walk.filterMap Event.left?).map Node.id = List.range u.numbered.nodeCount ∧
      ∀ event ∈ u.numbered.walk,
        (event.node.kind = .expression →
          ∃ inner, event.node.children = [inner] ∧ inner.id = event.node.id) ∧
        (event.node.kind ≠ .expression →
          ∀ other, TransGen Node.HasChild event.node other → other.id < event.node.id) ∧
        ∃ first, ∀ i, (∃ other, ReflTransGen Node.HasChild event.node other ∧ other.id = i) ↔
          first ≤ i ∧ i ≤ event.node.id := by
  refine ⟨u.erase_numbered, rfl, ?_, ?_⟩
  · rw [filterMap_walk, ids_numbered]
  · intro event hevent
    have hwalk : u.numbered.walk = (Node.sourceUnit u.numbered).walk none := rfl
    rw [hwalk] at hevent
    have hreach := Node.reachable_of_mem_walk _ hevent
    have hconsecutive := u.consecutive_numbered.of_reachable hreach
    refine ⟨?_, ?_, hconsecutive.exists_interval⟩
    · intro hkind
      obtain ⟨e, he⟩ := Node.kind_eq_expression_iff.mp hkind
      rw [he]
      exact ⟨.content e, rfl, rfl⟩
    · intro hkind other hother
      exact hconsecutive.id_lt hkind hother

end SourceUnit

end FlatModel
