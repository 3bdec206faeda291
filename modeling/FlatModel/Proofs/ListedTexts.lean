import FlatModel.Proofs.NestedVisits

/-!
# The texts of a listing

A listing is made while walking, from a table of texts by number.  In a numbered unit the table gives
every node the text that a recursion over the node makes, without any table.

* `Expression.listed`, …, `SourceUnit.listed`, `Node.listed` — the texts by recursion;
  `Expression.listed_erase` — numbers do not show in them.
* `Listing.Shows` — a node has this text in the table; `Listing.find?_record` — a node is written down
  so if its children are.
* `Lister.Lists` — events that write down nodes and leave other numbers alone; `lists_visits`,
  `lists_around` — visits one after the other, and one around others.
* `Node.lists_walk`, `SourceUnit.shows_listing`, `SourceUnit.shows_children` — walks do this if no
  number occurs twice, and every text is there before it is asked for.
-/

namespace FlatModel

open Relation Listing

/-! ## Texts by recursion -/

mutual

/-- The text of an expression. -/
def Expression.listed : Expression → String
  | .literal _ value => value.text
  | .reference _ name => name
  | .operation _ operator operands => operationText operator (Expression.listedAll operands)

/-- The expressions of a list as operands. -/
def Expression.listedAll : List Expression → List Operand
  | [] => []
  | e :: rest => ⟨e.listed, isCompound e⟩ :: Expression.listedAll rest

end

/-- The text of an equation. -/
def Equation.listed (e : Equation) : String := equationText Expression.listed e

/-- The text of a symbol. -/
def Symbol.listed (s : Symbol) : String := symbolText Expression.listed s

/-- The text of a class. -/
def ClassDef.listed (c : ClassDef) : String := classText Symbol.listed Equation.listed c

/-- The text of a unit. -/
def SourceUnit.listed (u : SourceUnit) : String := unitText ClassDef.listed u

/-- The text of a node. -/
def Node.listed : Node → String
  | .sourceUnit u => u.listed
  | .classDef c => c.listed
  | .symbol s => s.listed
  | .equation e => e.listed
  | .expression e => e.listed
  | .content e => e.listed

/-- Each expression of a list is an operand. -/
theorem Expression.listedAll_eq (es : List Expression) :
    listedAll es = es.map fun e => ⟨e.listed, isCompound e⟩ := by
  induction es with
  | nil => rfl
  | cons e rest ih => rw [listedAll, ih, List.map_cons]

/-- The numbers of a list are dropped in each of its expressions. -/
theorem Expression.eraseAll_eq (es : List Expression) : eraseAll es = es.map erase := by
  induction es with
  | nil => rfl
  | cons e rest ih => rw [eraseAll, ih, List.map_cons]

/-- Without numbers there are as many operands. -/
theorem Expression.length_eraseAll (es : List Expression) : (eraseAll es).length = es.length := by
  rw [eraseAll_eq, List.length_map]

/-- Whether an expression needs parentheses does not depend on its numbers. -/
theorem isCompound_erase (e : Expression) : isCompound e.erase = isCompound e := by
  cases e with
  | literal _ _ | reference _ _ => rfl
  | operation _ operator operands =>
      rw [Expression.erase, isCompound, isCompound, Expression.length_eraseAll]

mutual

/-- **The text of an expression does not depend on its numbers.** -/
theorem Expression.listed_erase : ∀ e : Expression, e.erase.listed = e.listed
  | .literal _ _ | .reference _ _ => rfl
  | .operation _ operator operands => by
      rw [erase, listed, listed, Expression.listedAll_eraseAll operands]

/-- The texts of operands do not depend on their numbers. -/
theorem Expression.listedAll_eraseAll : ∀ es : List Expression, listedAll (eraseAll es) = listedAll es
  | [] => rfl
  | e :: rest => by
      rw [eraseAll, listedAll, listedAll, Expression.listed_erase e, isCompound_erase,
        Expression.listedAll_eraseAll rest]

end

/-! ## Texts in a table -/

namespace Listing

/-- The node has its text in the table. -/
def Shows (l : Listing) (node : Node) : Prop := l.find? node.id = some node.listed

variable {l : Listing} {node : Node}

/-- The text of a node that is in the table. -/
theorem Shows.textOf_eq (h : l.Shows node) : l.textOf node.id = node.listed := by
  rw [textOf, h, Option.getD_some]

/-- **From the texts of its children a node gets its own.** -/
theorem nodeText?_eq (hkind : node.kind ≠ .expression) (h : ∀ child ∈ node.children, l.Shows child) :
    l.nodeText? node = some node.listed := by
  cases node with
  | sourceUnit u =>
      have htexts : (u.classes.values.map fun c => l.textOf c.id ++ "\n") =
          u.classes.values.map fun c => c.listed ++ "\n" :=
        List.map_congr_left fun c hc =>
          congrArg (· ++ "\n") (h (.classDef c) (List.mem_map_of_mem hc)).textOf_eq
      rw [nodeText?, unitText, htexts]
      rfl
  | classDef c =>
      have hsymbols : (c.symbols.values.map fun s => line (l.textOf s.id)) =
          c.symbols.values.map fun s => line s.listed :=
        List.map_congr_left fun s hs => congrArg line
          (h (.symbol s) (List.mem_append_left _ (List.mem_map_of_mem hs))).textOf_eq
      have hequations : (c.equations.map fun e => line (l.textOf e.id)) =
          c.equations.map fun e => line e.listed :=
        List.map_congr_left fun e he => congrArg line
          (h (.equation e) (List.mem_append_right _ (List.mem_map_of_mem he))).textOf_eq
      rw [nodeText?, classText, hsymbols, hequations]
      rfl
  | symbol s =>
      have hvalue : ∀ e, s.value = some e → l.textOf e.id = e.listed := fun e he =>
        (h (.expression e) (List.mem_append_left _ (by simp [he]))).textOf_eq
      have hstart : ∀ e, s.start = some e → l.textOf e.id = e.listed := fun e he =>
        (h (.expression e) (List.mem_append_right _ (by simp [he]))).textOf_eq
      rw [nodeText?, Node.listed, Symbol.listed, symbolText, symbolText]
      cases hs : s.start <;> cases hv : s.value <;> simp_all
  | equation e =>
      have hleft : l.textOf e.left.id = e.left.listed :=
        (h (.expression e.left) List.mem_cons_self).textOf_eq
      have hright : l.textOf e.right.id = e.right.listed :=
        (h (.expression e.right) (List.mem_cons_of_mem _ List.mem_cons_self)).textOf_eq
      rw [nodeText?, equationText, hleft, hright]
      rfl
  | expression e => exact absurd rfl hkind
  | content e =>
      cases e with
      | literal _ _ | reference _ _ => rfl
      | operation _ operator operands =>
          have hoperands : operands.map l.operand = Expression.listedAll operands := by
            rw [Expression.listedAll_eq]
            refine List.map_congr_left fun e he => ?_
            have htext : l.textOf e.id = e.listed :=
              (h (.expression e) (List.mem_map_of_mem he)).textOf_eq
            rw [operand, htext]
          rw [nodeText?, hoperands]
          rfl

/-- The outer visit of an expression writes nothing down. -/
theorem record_expression (e : Expression) : l.record (.expression e) = l := rfl

/-- **A node is written down** under its own number. -/
theorem find?_record (hkind : node.kind ≠ .expression)
    (h : ∀ child ∈ node.children, l.Shows child) (i : Nat) :
    (l.record node).find? i = if i = node.id then some node.listed else l.find? i := by
  rw [record, nodeText?_eq hkind h]
  exact NodeMap.find?_insert l node.id node.listed i

end Listing

/-! ## Events that write texts down -/

/-- Where a visit is left, the children have their texts. -/
def Lister.Ready (s : Lister) (event : Event) : Prop :=
  event.hook = .exit → ∀ child ∈ event.node.children, s.texts.Shows child

/-- From `s` on, the events write down what is at and under the nodes, each node from the texts of
its children, and change no text of a number that does not occur there. -/
structure Lister.Lists (nodes : List Node) (s : Lister) (events : List Event) : Prop where
  /-- What is at and under the nodes has its text in the end. -/
  shows : ∀ node ∈ nodes, ∀ other, ReflTransGen Node.HasChild node other →
    (events.foldl Lister.step s).texts.Shows other
  /-- Texts of other numbers stay. -/
  keeps : ∀ i ∉ (nodes.flatMap Node.nodes).map Node.id,
    (events.foldl Lister.step s).texts.find? i = s.texts.find? i
  /-- Children come before their parents. -/
  ready : Along Lister.step Lister.Ready s events

/-- Whatever is at or under a node has a number of the nodes there. -/
theorem Node.id_mem_of_reachable {node other : Node} (h : ReflTransGen HasChild node other) :
    other.id ∈ node.nodes.map id :=
  exists_reachable_iff.mp ⟨other, h, rfl⟩

/-- **Visits one after the other** write down all their nodes if these share no number. -/
theorem lists_visits {parent : Option Nat} {nodes : List Node}
    (hvisits : ∀ node ∈ nodes, (node.nodes.map Node.id).Nodup →
      ∀ s, Lister.Lists [node] s (node.walk parent))
    (hnodup : ((nodes.flatMap Node.nodes).map Node.id).Nodup) (s : Lister) :
    Lister.Lists nodes s (nodes.flatMap (Node.walk parent)) := by
  induction nodes generalizing s with
  | nil => exact ⟨nofun, fun _ _ => rfl, trivial⟩
  | cons node rest ih =>
      rw [List.forall_mem_cons] at hvisits
      rw [List.flatMap_cons, List.map_append, List.nodup_append] at hnodup
      obtain ⟨hnode, hrest, hapart⟩ := hnodup
      have hfirst := hvisits.1 hnode s
      have hmore := ih hvisits.2 hrest ((node.walk parent).foldl Lister.step s)
      refine ⟨?_, ?_, ?_⟩
      · intro other hother below hbelow
        rw [List.flatMap_cons, List.foldl_append]
        rcases List.mem_cons.mp hother with rfl | hother
        · -- the visits behind the first one write under other numbers
          have hid := Node.id_mem_of_reachable hbelow
          have hstays := hmore.keeps _ fun hmem => hapart _ hid _ hmem rfl
          exact hstays.trans (hfirst.shows other (List.mem_singleton_self _) below hbelow)
        · exact hmore.shows other hother below hbelow
      · intro i hi
        rw [List.flatMap_cons, List.map_append, List.mem_append, not_or] at hi
        rw [List.flatMap_cons, List.foldl_append, hmore.keeps i hi.2]
        exact hfirst.keeps i (by rw [List.flatMap_singleton]; exact hi.1)
      · rw [List.flatMap_cons, along_append]
        exact ⟨hfirst.ready, hmore.ready⟩

/-- The texts after a visit: what was written down inside it, and its node. -/
theorem texts_around (node : Node) (parent : Option Nat) (inner : List Event) (s : Lister) :
    ((Event.around node parent inner).foldl Lister.step s).texts =
      (inner.foldl Lister.step { s with level := s.level + 1 }).texts.record node := by
  rw [Event.around, List.foldl_cons, List.foldl_cons, List.foldl_append]
  rfl

/-- **A visit around others** writes down its node as well. -/
theorem lists_around {node : Node} (hnodup : (node.nodes.map Node.id).Nodup) (parent : Option Nat)
    {inner : List Event} (hinner : ∀ s, Lister.Lists node.children s inner) (s : Lister) :
    Lister.Lists [node] s (Event.around node parent inner) := by
  obtain ⟨hshows, hkeeps, hready⟩ := hinner { s with level := s.level + 1 }
  have hchildren : ∀ child ∈ node.children,
      (inner.foldl Lister.step { s with level := s.level + 1 }).texts.Shows child :=
    fun child hchild => hshows child hchild child .refl
  rw [Node.nodes_eq, List.map_append] at hnodup
  refine ⟨?_, ?_, ?_⟩
  · intro first hfirst other hother
    cases List.mem_singleton.mp hfirst
    rw [texts_around]
    by_cases hkind : node.kind = .expression
    · -- an expression has the text of its content
      obtain ⟨e, rfl⟩ := Node.kind_eq_expression_iff.mp hkind
      rw [record_expression]
      rcases hother.cases_head with rfl | ⟨child, hchild, hother⟩
      · exact hchildren (.content e) (List.mem_singleton_self _)
      · exact hshows child hchild other hother
    · refine (find?_record hkind hchildren _).trans ?_
      rcases hother.cases_head with rfl | ⟨child, hchild, hother⟩
      · exact if_pos rfl
      · have hmem : other.id ∈ (node.children.flatMap Node.nodes).map Node.id := by
          rw [List.map_flatMap, List.mem_flatMap]
          exact ⟨child, hchild, Node.id_mem_of_reachable hother⟩
        rw [Node.self_eq hkind, List.map_singleton, List.nodup_append] at hnodup
        rw [if_neg (hnodup.2.2 _ hmem _ (List.mem_singleton_self _))]
        exact hshows child hchild other hother
  · intro i hi
    rw [List.flatMap_singleton] at hi
    have hne : i ≠ node.id := fun h => hi (h ▸ Node.id_mem_of_reachable .refl)
    rw [Node.nodes_eq, List.map_append, List.mem_append, not_or] at hi
    have hstays := hkeeps i hi.1
    rw [texts_around]
    by_cases hkind : node.kind = .expression
    · obtain ⟨e, rfl⟩ := Node.kind_eq_expression_iff.mp hkind
      exact hstays
    · rw [find?_record hkind hchildren, if_neg hne]
      exact hstays
  · refine ⟨nofun, nofun, along_append.mpr ⟨hready, ?_, nofun, trivial⟩⟩
    exact fun _ => hchildren

/-- **A walk writes down what it visits** if no number occurs twice. -/
theorem Node.lists_walk (node : Node) : ∀ (parent : Option Nat),
    (node.nodes.map id).Nodup → ∀ s, Lister.Lists [node] s (node.walk parent) := by
  induction node using Node.induction with
  | h node ih =>
    intro parent hnodup s
    rw [walk_eq]
    refine lists_around hnodup parent (fun s => ?_) s
    rw [nodes_eq, List.map_append] at hnodup
    exact lists_visits (fun child hchild => ih child hchild _) hnodup.of_append_left s

namespace SourceUnit

/-- The walk through a numbered unit writes all of it down. -/
theorem lists_walk_numbered (u : SourceUnit) : Lister.Lists [.sourceUnit u.numbered] {} u.numbered.walk := by
  refine Node.lists_walk (.sourceUnit u.numbered) none ?_ {}
  show (u.numbered.nodes.map Node.id).Nodup
  rw [ids_numbered]
  exact List.nodup_range

/-- **Every node of a numbered unit has its text** in the listing. -/
theorem shows_listing {u : SourceUnit} {event : Event} (h : event ∈ u.numbered.walk) :
    u.numbered.listing.Shows event.node := by
  have hwalk : u.numbered.walk = (Node.sourceUnit u.numbered).walk none := rfl
  have hreach := Node.reachable_of_mem_walk _ (hwalk ▸ h)
  exact u.lists_walk_numbered.shows _ (List.mem_singleton_self _) _ hreach

/-- **No text is asked for before it is there**: where a visit is left, all children have theirs. -/
theorem shows_children {u : SourceUnit} {before after : List Event} {event : Event}
    (h : u.numbered.walk = before ++ event :: after) (hhook : event.hook = .exit) :
    ∀ child ∈ event.node.children, (before.foldl Lister.step {}).texts.Shows child := by
  have hready := u.lists_walk_numbered.ready
  rw [h] at hready
  exact hready.at hhook

end SourceUnit

end FlatModel
