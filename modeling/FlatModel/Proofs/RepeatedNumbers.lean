import FlatModel.Proofs.UnresolvedReferences
import FlatModel.Proofs.VisitedNodes

/-!
# Repeated numbers are found

A unit may be walked with whatever numbers its nodes have.  If two nodes share one, the text of the
one may be read for the other, but the second of them that is written is refused.  So a walk without
faults is a walk over different numbers, and then it does what it does over a numbered unit.

* `Node.isTranslated` — the nodes that have fragments; `SourceUnit.fragmentIds` are their numbers.
* `FragmentTable.Clean`, `FragmentTable.Records` — a table into which fragments can be written, and
  one into which they were.
* `Assembly.Grows` — faults are only ever added.
* `Assembly.Detects` — what a part of a run does with any numbers: it adds no fault just if its
  fragments can be written and its references can be resolved, and then they are written.  Parts
  compose by `Assembly.Detects.trans`.
* `Assembly.detects_expression`, `detects_symbol`, `detects_equation`, `detects_class`,
  `collects_classes` — the walk through a node.
* `Assembly.run_errors_eq_nil_iff` — the run over a unit.
-/

namespace FlatModel

open Emission

/-! ## The fragments of nodes -/

/-- Whether the node has a fragment: symbols, equations, operations, literals and references have
one. -/
def Node.isTranslated (n : Node) : Bool :=
  match n.kind with
  | .symbol | .equation | .operation | .literal | .reference => true
  | .sourceUnit | .classDef | .expression => false

/-- The number and the text of a node that has a fragment. -/
def Node.fragment? (n : Node) : Option (Nat × String) :=
  if n.isTranslated then n.translation?.map fun text => (n.id, text) else none

/-- The numbers of all nodes of a unit that have fragments. -/
def SourceUnit.fragmentIds (u : SourceUnit) : List Nat :=
  (u.nodes.filter Node.isTranslated).map Node.id

/-- The fragments of nodes, with their numbers. -/
def fragmentsOf (nodes : List Node) : List (Nat × String) := nodes.filterMap Node.fragment?

theorem fragmentsOf_append (nodes nodes' : List Node) :
    fragmentsOf (nodes ++ nodes') = fragmentsOf nodes ++ fragmentsOf nodes' :=
  List.filterMap_append

/-- The fragment of an expression is that of the literal, reference or operation it is. -/
theorem Node.fragment?_content (e : Expression) :
    (Node.content e).fragment? = some (e.id, e.translation) := by
  cases e <;> rfl

/-- The fragment of a symbol is its identifier. -/
theorem Node.fragment?_symbol (s : Symbol) :
    (Node.symbol s).fragment? = some (s.id, Identifier.sanitize s.name) := rfl

/-- The fragment of an equation. -/
theorem Node.fragment?_equation (e : Equation) :
    (Node.equation e).fragment? = some (e.id, e.translation) := rfl

/-- The numbers of the fragments of nodes. -/
theorem map_fst_fragmentsOf (nodes : List Node) :
    (fragmentsOf nodes).map Prod.fst = (nodes.filter Node.isTranslated).map Node.id := by
  have hnode : ∀ n : Node,
      n.fragment?.map Prod.fst = if n.isTranslated then some n.id else none := by
    intro n
    cases n with
    | content e =>
        rw [Node.fragment?_content]
        cases e <;> rfl
    | _ => rfl
  rw [fragmentsOf, List.map_filterMap, funext hnode]
  induction nodes with
  | nil => rfl
  | cons n rest ih =>
      rw [List.filterMap_cons, List.filter_cons]
      cases n.isTranslated with
      | true => simp [ih]
      | false => simp [ih]

/-- The fragment of an expression is among those of expressions that have it. -/
theorem Expression.mem_fragmentsOf {e : Expression} {es : List Expression} (he : e ∈ es) :
    (e.id, e.translation) ∈ fragmentsOf (nodesAll es) :=
  List.mem_filterMap.mpr ⟨_, mem_nodesAll e.content_mem_nodes he, Node.fragment?_content e⟩

namespace Emission

/-! ## Tables -/

namespace FragmentTable

/-- The fragments have different numbers, and none of them has a fragment in the table. -/
def Clean (t : FragmentTable) (fragments : List (Nat × String)) : Prop :=
  (fragments.map Prod.fst).Nodup ∧ ∀ p ∈ fragments, t.get? p.1 = none

/-- `u` has these fragments, and otherwise what `t` has. -/
structure Records (t u : FragmentTable) (fragments : List (Nat × String)) : Prop where
  /-- The fragments are there. -/
  written : ∀ p ∈ fragments, u.get? p.1 = some p.2
  /-- Nothing else has changed. -/
  others : ∀ id, id ∉ fragments.map Prod.fst → u.get? id = t.get? id

variable {t u v : FragmentTable} {fragments fragments' : List (Nat × String)}

theorem clean_nil : t.Clean [] := ⟨List.nodup_nil, List.forall_mem_nil _⟩

theorem Records.refl : t.Records t [] := ⟨List.forall_mem_nil _, fun _ _ => rfl⟩

/-- Fragments one after the other. -/
theorem Records.trans (h : t.Records u fragments) (hclean : u.Clean fragments')
    (h' : u.Records v fragments') : t.Records v (fragments ++ fragments') where
  written := by
    intro p hp
    rcases List.mem_append.mp hp with hp | hp
    · have hother : p.1 ∉ fragments'.map Prod.fst := by
        intro hmem
        obtain ⟨q, hq, hqp⟩ := List.mem_map.mp hmem
        have hnone := hclean.2 q hq
        rw [hqp, h.written p hp] at hnone
        cases hnone
      rw [h'.others _ hother, h.written p hp]
    · exact h'.written p hp
  others := by
    intro id hid
    rw [List.map_append, List.mem_append, not_or] at hid
    rw [h'.others id hid.2, h.others id hid.1]

/-- If fragments can be written, so can the first of them. -/
theorem Clean.left (h : t.Clean (fragments ++ fragments')) : t.Clean fragments := by
  obtain ⟨hnodup, hnone⟩ := h
  rw [List.map_append] at hnodup
  exact ⟨hnodup.of_append_left, fun p hp => hnone p (List.mem_append_left _ hp)⟩

/-- **More fragments can be written** if the first can be, and the others after them. -/
theorem Records.clean_append_iff (h : t.Records u fragments) :
    t.Clean (fragments ++ fragments') ↔ t.Clean fragments ∧ u.Clean fragments' := by
  constructor
  · intro hclean
    have hleft := hclean.left
    obtain ⟨hnodup, hnone⟩ := hclean
    rw [List.map_append, List.nodup_append] at hnodup
    obtain ⟨-, hnodup', hapart⟩ := hnodup
    refine ⟨hleft, hnodup', ?_⟩
    intro p hp
    have hother : p.1 ∉ fragments.map Prod.fst := fun hmem =>
      hapart p.1 hmem p.1 (List.mem_map.mpr ⟨p, hp, rfl⟩) rfl
    rw [h.others _ hother]
    exact hnone p (List.mem_append_right _ hp)
  · rintro ⟨⟨hnodup, hnone⟩, hnodup', hnone'⟩
    -- what is written by now has a fragment, what is yet to be written has none
    have hapart : ∀ p ∈ fragments, ∀ q ∈ fragments', p.1 ≠ q.1 := by
      intro p hp q hq heq
      have hq := hnone' q hq
      rw [← heq, h.written p hp] at hq
      cases hq
    constructor
    · rw [List.map_append, List.nodup_append]
      refine ⟨hnodup, hnodup', ?_⟩
      simp only [List.forall_mem_map]
      exact hapart
    · intro q hq
      rcases List.mem_append.mp hq with hq | hq
      · exact hnone q hq
      · have hother : q.1 ∉ fragments.map Prod.fst := by
          intro hmem
          obtain ⟨p, hp, hpq⟩ := List.mem_map.mp hmem
          exact hapart p hp q hq hpq
        rw [← h.others _ hother]
        exact hnone' q hq

/-- One fragment can be written if its number has none. -/
theorem clean_singleton {id : Nat} {text : String} : t.Clean [(id, text)] ↔ t.get? id = none := by
  simp [Clean]

/-- One fragment is written. -/
theorem records_of_insert? {id : Nat} {text : String} (h : t.insert? id text = some u) :
    t.Records u [(id, text)] := by
  constructor
  · intro p hp
    cases List.mem_singleton.mp hp
    rw [get?_of_insert? h, if_pos rfl]
  · intro j hj
    rw [get?_of_insert? h, if_neg]
    simpa using hj

end FragmentTable

namespace Assembly

/-! ## Faults are kept -/

/-- Faults are only added. -/
def Grows (t t' : Assembly) : Prop := ∃ more, t'.errors = t.errors ++ more

section grows

variable {t t' t'' : Assembly}

theorem Grows.of_eq (h : t'.errors = t.errors) : t.Grows t' := ⟨[], by rw [h, List.append_nil]⟩

theorem Grows.trans (h : t.Grows t') (h' : t'.Grows t'') : t.Grows t'' := by
  obtain ⟨more, hmore⟩ := h
  obtain ⟨more', hmore'⟩ := h'
  exact ⟨more ++ more', by rw [hmore', hmore, List.append_assoc]⟩

/-- **If no fault is added in all, none is added on the way.** -/
theorem Grows.quiet (h : t.Grows t') (h' : t'.Grows t'') (hquiet : t''.errors = t.errors) :
    t'.errors = t.errors ∧ t''.errors = t'.errors := by
  obtain ⟨more, hmore⟩ := h
  obtain ⟨more', hmore'⟩ := h'
  rw [hmore, List.append_assoc, hquiet, List.self_eq_append_right, List.append_eq_nil_iff] at hmore'
  obtain ⟨rfl, rfl⟩ := hmore'
  rw [List.append_nil] at hmore
  exact ⟨hmore, hquiet.trans hmore.symm⟩

variable (t)

theorem grows_fail (e : EmissionError) : t.Grows (t.fail e) := ⟨[e], rfl⟩

theorem grows_emit (id : Nat) (text : String) : t.Grows (t.emit id text) := by
  unfold emit
  split
  · exact .of_eq rfl
  · exact grows_fail t _

theorem grows_take (id : Nat) : t.Grows (t.take id).2 := by
  unfold take
  split
  · exact .of_eq rfl
  · exact grows_fail t _

theorem grows_takeAll (ids : List Nat) : t.Grows (t.takeAll ids).2 := by
  induction ids generalizing t with
  | nil => exact .of_eq rfl
  | cons id rest ih => exact (grows_take t id).trans (ih _)

theorem grows_resolve (name : String) : t.Grows (t.resolve name) := by
  unfold resolve
  split
  · split
    · exact .of_eq rfl
    · exact grows_fail t _
  · exact .of_eq rfl

/-- Leaving a node takes no fault away. -/
theorem grows_leave (node : Node) : t.Grows (t.leave node) := by
  cases node with
  | sourceUnit u => exact .of_eq rfl
  | classDef c =>
      rw [leave]
      split
      · exact .of_eq rfl
      · exact grows_fail t _
  | symbol s => exact grows_emit t _ _
  | equation e =>
      rw [leave]
      exact ((grows_take t _).trans (grows_take _ _)).trans (grows_emit _ _ _)
  | expression e => exact .of_eq rfl
  | content e =>
      cases e with
      | literal id value => exact grows_emit t _ _
      | reference id name => exact (grows_resolve t name).trans (grows_emit _ _ _)
      | operation id operator operands => exact (grows_takeAll t _).trans (grows_emit _ _ _)

/-- An event takes no fault away. -/
theorem grows_step (event : Event) : t.Grows (t.step event) := by
  unfold step
  split
  · cases event.node <;> exact .of_eq rfl
  · exact grows_leave t _
  · exact .of_eq rfl
  · exact .of_eq rfl

/-- **Events take no faults away.** -/
theorem grows_foldl (events : List Event) : t.Grows (events.foldl step t) := by
  induction events generalizing t with
  | nil => exact .of_eq rfl
  | cons event rest ih => exact (grows_step t event).trans (ih _)

end grows

/-! ## Parts of a run -/

/-- What a part of a run does that writes these fragments and refers to names with these faults: no
fault is added just if the fragments can be written and there are no such faults. -/
structure Detects (t t' : Assembly) (fragments : List (Nat × String))
    (faults : List EmissionError) : Prop where
  /-- Faults are only added. -/
  grows : t.Grows t'
  /-- When none is added. -/
  quiet_iff : t'.errors = t.errors ↔ t.table.Clean fragments ∧ faults = []
  /-- If none is added, the fragments are written. -/
  records : t'.errors = t.errors → t.table.Records t'.table fragments

/-- The same of a part inside of a class. -/
structure DetectsInside (t t' : Assembly) (fragments : List (Nat × String))
    (faults : List EmissionError) : Prop extends t.Detects t' fragments faults where
  /-- If no fault is added, there are only more fragments. -/
  same : t'.errors = t.errors → t' = { t with table := t'.table }

section parts

variable {t t' t'' : Assembly} {fragments fragments' : List (Nat × String)}
  {faults faults' : List EmissionError}

/-- Nothing is written. -/
theorem Detects.of_eq (herrors : t'.errors = t.errors) (htable : t'.table = t.table) :
    t.Detects t' [] [] where
  grows := .of_eq herrors
  quiet_iff := iff_of_true herrors ⟨FragmentTable.clean_nil, rfl⟩
  records _ := by
    rw [htable]
    exact .refl

/-- **One part after the other.**  About the second one something needs to be known only if the
first one adds no fault. -/
theorem Detects.trans (h : t.Detects t' fragments faults) (hgrows : t'.Grows t'')
    (h' : t'.errors = t.errors → t'.Detects t'' fragments' faults') :
    t.Detects t'' (fragments ++ fragments') (faults ++ faults') where
  grows := h.grows.trans hgrows
  quiet_iff := by
    rw [List.append_eq_nil_iff]
    constructor
    · intro hquiet
      obtain ⟨hquiet, hquiet'⟩ := h.grows.quiet hgrows hquiet
      obtain ⟨hclean, hfaults⟩ := h.quiet_iff.mp hquiet
      obtain ⟨hclean', hfaults'⟩ := (h' hquiet).quiet_iff.mp hquiet'
      exact ⟨(h.records hquiet).clean_append_iff.mpr ⟨hclean, hclean'⟩, hfaults, hfaults'⟩
    · rintro ⟨hclean, hfaults, hfaults'⟩
      have hquiet := h.quiet_iff.mpr ⟨hclean.left, hfaults⟩
      have hclean' := ((h.records hquiet).clean_append_iff.mp hclean).2
      exact ((h' hquiet).quiet_iff.mpr ⟨hclean', hfaults'⟩).trans hquiet
  records := by
    intro hquiet
    obtain ⟨hquiet, hquiet'⟩ := h.grows.quiet hgrows hquiet
    have hsecond := h' hquiet
    exact (h.records hquiet).trans (hsecond.quiet_iff.mp hquiet').1 (hsecond.records hquiet')

/-- Nothing is written inside of a class. -/
theorem DetectsInside.refl : t.DetectsInside t [] [] := ⟨.of_eq rfl rfl, fun _ => rfl⟩

/-- A part that adds no fault does not change the scope. -/
theorem DetectsInside.scope_eq (h : t.DetectsInside t' fragments faults)
    (hquiet : t'.errors = t.errors) : t'.scope = t.scope := by
  rw [h.same hquiet]

/-- One part inside of a class after the other. -/
theorem DetectsInside.trans (h : t.DetectsInside t' fragments faults) (hgrows : t'.Grows t'')
    (h' : t'.errors = t.errors → t'.DetectsInside t'' fragments' faults') :
    t.DetectsInside t'' (fragments ++ fragments') (faults ++ faults') where
  toDetects := h.toDetects.trans hgrows fun hquiet => (h' hquiet).toDetects
  same := by
    intro hquiet
    obtain ⟨hquiet, hquiet'⟩ := h.grows.quiet hgrows hquiet
    rw [(h' hquiet).same hquiet']
    conv_lhs => rw [h.same hquiet]

end parts

/-! ## Single steps -/

section steps

variable {t t' : Assembly} {fragments : List (Nat × String)} {faults : List EmissionError}

/-- A noted fault is one more. -/
theorem errors_fail_ne (t : Assembly) (e : EmissionError) : (t.fail e).errors ≠ t.errors := by
  simp [fail]

/-- **Storing a fragment** adds a fault if its number has one. -/
theorem detects_emit (t : Assembly) (id : Nat) (text : String) :
    t.DetectsInside (t.emit id text) [(id, text)] [] := by
  rcases hinsert : t.table.insert? id text with _ | table
  · have hemit : t.emit id text = t.fail (.secondFragment id) := by rw [emit, hinsert]
    have hsome : t.table.get? id ≠ none := by
      rw [FragmentTable.insert?_eq_none_iff] at hinsert
      exact Option.isSome_iff_ne_none.mp hinsert
    have hne : (t.emit id text).errors ≠ t.errors := hemit ▸ errors_fail_ne t _
    refine ⟨⟨grows_emit t id text, ?_, fun h => absurd h hne⟩, fun h => absurd h hne⟩
    rw [FragmentTable.clean_singleton]
    exact iff_of_false hne fun h => hsome h.1
  · have hemit : t.emit id text = { t with table := table } := by rw [emit, hinsert]
    have hnone : t.table.get? id = none := by
      rw [← Option.not_isSome_iff_eq_none, ← FragmentTable.insert?_eq_none_iff t.table id text,
        hinsert]
      exact Option.some_ne_none table
    rw [hemit]
    refine ⟨⟨.of_eq rfl, ?_, fun _ => FragmentTable.records_of_insert? hinsert⟩, fun _ => rfl⟩
    rw [FragmentTable.clean_singleton]
    exact iff_of_true rfl ⟨hnone, rfl⟩

/-- **Looking up a name** adds a fault if it is not in scope. -/
theorem detects_resolve {scope : Emission.Scope} (hscope : t.scope = some scope) (id : Nat)
    (name : String) :
    t.DetectsInside (t.resolve name) [] ((Expression.reference id name).faults scope) := by
  rw [resolve, hscope, Expression.faults]
  dsimp only
  split
  · exact .refl
  · have hne := errors_fail_ne t (.unresolvedReference scope.name name)
    refine ⟨⟨grows_fail t _, ?_, fun h => absurd h hne⟩, fun h => absurd h hne⟩
    exact iff_of_false hne fun h => List.cons_ne_nil _ _ h.2

/-- Leaving a node that stores a fragment if no fault was added under it. -/
theorem DetectsInside.leave (h : t.DetectsInside t' fragments faults) {node : Node} {text : String}
    (hleave : t.table.Records t'.table fragments → t'.leave node = t'.emit node.id text) :
    t.DetectsInside (t'.leave node) (fragments ++ [(node.id, text)]) faults := by
  have hboth := h.trans (grows_leave t' node) fun hquiet => by
    rw [hleave (h.records hquiet)]
    exact detects_emit t' node.id text
  rwa [List.append_nil] at hboth

end steps

/-! ## Expressions -/

-- By recursion over the tree.  What carries it is that a part without faults leaves the texts of its
-- nodes in the table, so that a node finds those of its operands; after a fault nothing is claimed.
mutual

/-- The walk through an expression. -/
theorem detects_expression (parent : Option Nat) {scope : Emission.Scope} :
    ∀ (e : Expression) {t : Assembly}, t.scope = some scope →
      t.DetectsInside ((e.walk parent).foldl step t) (fragmentsOf e.nodes) (e.faults scope)
  | .literal id value, t, _ => by
      rw [Expression.walk, foldl_expression]
      exact detects_emit t id value.text
  | .reference id name, t, hscope => by
      rw [Expression.walk, foldl_expression]
      have hboth := (detects_resolve hscope id name).trans (grows_emit _ _ _) fun _ =>
        detects_emit _ id (Identifier.sanitize name)
      rwa [List.append_nil] at hboth
  | .operation id operator operands, t, hscope => by
      have hoperands := detects_expressions (some id) operands hscope
      rw [Expression.walk, foldl_expression, Expression.nodes, fragmentsOf_append]
      exact hoperands.leave fun hrecords =>
        leave_operation id operator fun e he => hrecords.written _ (Expression.mem_fragmentsOf he)

/-- The walk through expressions. -/
theorem detects_expressions (parent : Option Nat) {scope : Emission.Scope} :
    ∀ (es : List Expression) {t : Assembly}, t.scope = some scope →
      t.DetectsInside ((Expression.walkAll parent es).foldl step t)
        (fragmentsOf (Expression.nodesAll es)) (Expression.faultsAll scope es)
  | [], _, _ => .refl
  | e :: rest, t, hscope => by
      have hhead := detects_expression parent e hscope
      rw [Expression.walkAll, List.foldl_append, Expression.nodesAll, fragmentsOf_append]
      exact hhead.trans (grows_foldl _ _) fun hquiet =>
        detects_expressions parent rest ((hhead.scope_eq hquiet).trans hscope)

end

/-! ## Symbols and equations -/

section members

variable {scope : Emission.Scope} (parent : Option Nat)

/-- The walk through a symbol. -/
theorem detects_symbol (s : Symbol) {t : Assembly} (hscope : t.scope = some scope) :
    t.DetectsInside ((s.walk parent).foldl step t) (fragmentsOf s.nodes) (s.faults scope) := by
  have hinner := detects_expressions (some s.id) s.expressions hscope
  rw [Symbol.walk, foldl_around_of_enter rfl, Symbol.nodes, fragmentsOf_append]
  exact hinner.leave fun _ => rfl

/-- The walk through an equation. -/
theorem detects_equation (e : Equation) {t : Assembly} (hscope : t.scope = some scope) :
    t.DetectsInside ((e.walk parent).foldl step t) (fragmentsOf e.nodes) (e.faults scope) := by
  have hinner := detects_expressions (some e.id) [e.left, e.right] hscope
  rw [Equation.walk, walk_sides, foldl_around_of_enter rfl, Equation.nodes, fragmentsOf_append]
  exact hinner.leave fun hrecords =>
    leave_equation fun side hside => hrecords.written _ (Expression.mem_fragmentsOf hside)

/-- The walk through several items of one kind. -/
theorem detects_flatMap {α : Type} {walk : α → List Event} {nodes : α → List Node}
    {faults : α → List EmissionError}
    (h : ∀ (a : α) {t : Assembly}, t.scope = some scope →
      t.DetectsInside ((walk a).foldl step t) (fragmentsOf (nodes a)) (faults a)) :
    ∀ (items : List α) {t : Assembly}, t.scope = some scope →
      t.DetectsInside ((items.flatMap walk).foldl step t) (fragmentsOf (items.flatMap nodes))
        (items.flatMap faults)
  | [], _, _ => .refl
  | a :: rest, t, hscope => by
      have hhead := h a hscope
      rw [List.flatMap_cons, List.foldl_append, List.flatMap_cons, fragmentsOf_append,
        List.flatMap_cons]
      exact hhead.trans (grows_foldl _ _) fun hquiet =>
        detects_flatMap h rest ((hhead.scope_eq hquiet).trans hscope)

/-- The walk through the symbols and equations of a class. -/
theorem detects_members (c : ClassDef) {t : Assembly} (hscope : t.scope = some c.scope) :
    t.DetectsInside ((c.symbols.values.flatMap (Symbol.walk parent) ++
        c.equations.flatMap (Equation.walk parent)).foldl step t)
      (fragmentsOf (c.symbols.values.flatMap Symbol.nodes ++ c.equations.flatMap Equation.nodes))
      c.faults := by
  have hsymbols := detects_flatMap (detects_symbol parent) c.symbols.values hscope
  rw [List.foldl_append, fragmentsOf_append]
  exact hsymbols.trans (grows_foldl _ _) fun hquiet =>
    detects_flatMap (detects_equation parent) c.equations ((hsymbols.scope_eq hquiet).trans hscope)

end members

/-! ## Classes -/

/-- The document of a class whose fragments are written. -/
theorem build_of_records {c : ClassDef} {t u : FragmentTable} (h : t.Records u (fragmentsOf
    (c.symbols.values.flatMap Symbol.nodes ++ c.equations.flatMap Equation.nodes))) :
    ModelDoc.build c u = .ok (.direct c) := by
  have hfound : ∀ node ∈
      c.symbols.values.flatMap Symbol.nodes ++ c.equations.flatMap Equation.nodes,
      ∀ id text, node.fragment? = some (id, text) → u.get? id = some text :=
    fun node hnode id text hp => h.written (id, text) (List.mem_filterMap.mpr ⟨node, hnode, hp⟩)
  apply ModelDoc.build_eq_direct
  · intro s hs
    have hnodes : ∀ node ∈ s.nodes, ∀ id text, node.fragment? = some (id, text) →
        u.get? id = some text :=
      fun node hnode => hfound node (List.mem_append_left _ (List.mem_flatMap.mpr ⟨s, hs, hnode⟩))
    constructor
    · have hnode : Node.symbol s ∈ s.nodes := List.mem_append_right _ List.mem_cons_self
      exact hnodes _ hnode _ _ (Node.fragment?_symbol s)
    · intro e he
      have hnode := Expression.mem_nodesAll e.content_mem_nodes he
      exact hnodes _ (List.mem_append_left _ hnode) _ _ (Node.fragment?_content e)
  · intro e he
    have hnode : Node.equation e ∈ e.nodes := List.mem_append_right _ List.mem_cons_self
    have hmember := List.mem_append_right (c.symbols.values.flatMap Symbol.nodes)
      (List.mem_flatMap.mpr ⟨e, he, hnode⟩)
    exact hfound _ hmember _ _ (Node.fragment?_equation e)

/-- **The walk through a class.**  If no fault is added, its document is kept under its number. -/
theorem detects_class (parent : Option Nat) (c : ClassDef) (t : Assembly) :
    t.Detects ((c.walk parent).foldl step t) (fragmentsOf c.nodes) c.faults ∧
      (((c.walk parent).foldl step t).errors = t.errors →
        (c.walk parent).foldl step t =
          { t with
            table := ((c.walk parent).foldl step t).table
            models := t.models.insert c.id (.direct c)
            scope := none }) := by
  have hmembers := detects_members (some c.id) c (t := t.enter (.classDef c)) rfl
  rw [ClassDef.walk, foldl_around]
  generalize (c.symbols.values.flatMap (Symbol.walk (some c.id)) ++
    c.equations.flatMap (Equation.walk (some c.id))).foldl step (t.enter (.classDef c)) = t'
    at hmembers ⊢
  have hleave : t'.errors = t.errors → t'.leave (.classDef c) =
      { t' with models := t'.models.insert c.id (.direct c), scope := none } :=
    fun hquiet => leave_class (build_of_records (hmembers.records hquiet))
  have hgrows := grows_leave t' (.classDef c)
  have hclass := hmembers.toDetects.trans hgrows fun hquiet => by
    rw [hleave hquiet]
    exact .of_eq rfl rfl
  constructor
  · have hnodes : fragmentsOf c.nodes = fragmentsOf (c.symbols.values.flatMap Symbol.nodes ++
        c.equations.flatMap Equation.nodes) ++ [] := fragmentsOf_append _ _
    rw [List.append_nil c.faults] at hclass
    rw [hnodes]
    exact ⟨hclass.grows, hclass.quiet_iff, hclass.records⟩
  · intro hquiet
    obtain ⟨hquiet, -⟩ := hmembers.grows.quiet hgrows hquiet
    rw [hleave hquiet]
    conv_lhs => rw [hmembers.same hquiet]
    rfl

/-- What the walk through classes does with any numbers. -/
structure Collects (t t' : Assembly) (classes : List ClassDef) : Prop extends
    t.Detects t' (fragmentsOf (classes.flatMap ClassDef.nodes))
      (classes.flatMap ClassDef.faults) where
  /-- If no fault is added, every class has its document, provided that the classes have different
  numbers. -/
  documents : t'.errors = t.errors → (classes.map ClassDef.id).Nodup →
    ∀ c ∈ classes, t'.models.find? c.id = some (.direct c)
  /-- If no fault is added, the documents of other classes stay. -/
  others : t'.errors = t.errors →
    ∀ id, id ∉ classes.map ClassDef.id → t'.models.find? id = t.models.find? id
  /-- If no fault is added, the digest stays. -/
  digest : t'.errors = t.errors → t'.sourceDigest = t.sourceDigest

/-- **The walk through classes.** -/
theorem collects_classes (parent : Option Nat) : ∀ (classes : List ClassDef) (t : Assembly),
    t.Collects ((classes.flatMap (ClassDef.walk parent)).foldl step t) classes
  | [], t => ⟨.of_eq rfl rfl, fun _ _ => List.forall_mem_nil _, fun _ _ _ => rfl, fun _ => rfl⟩
  | c :: rest, t => by
      obtain ⟨hhead, hclass⟩ := detects_class parent c t
      rw [List.flatMap_cons, List.foldl_append]
      generalize (c.walk parent).foldl step t = t' at hhead hclass
      have hrest := collects_classes parent rest t'
      have hgrows := grows_foldl t' (rest.flatMap (ClassDef.walk parent))
      generalize (rest.flatMap (ClassDef.walk parent)).foldl step t' = t'' at hrest hgrows ⊢
      have hboth := hhead.trans hgrows fun _ => hrest.toDetects
      rw [← fragmentsOf_append, ← List.flatMap_cons, ← List.flatMap_cons] at hboth
      refine ⟨hboth, ?_, ?_, ?_⟩
      · intro hquiet hnodup d hd
        obtain ⟨hquiet, hquiet'⟩ := hhead.grows.quiet hgrows hquiet
        rw [List.map_cons, List.nodup_cons] at hnodup
        rcases List.mem_cons.mp hd with rfl | hd
        · rw [hrest.others hquiet' _ hnodup.1, hclass hquiet, NodeMap.find?_insert, if_pos rfl]
        · exact hrest.documents hquiet' hnodup.2 d hd
      · intro hquiet id hid
        obtain ⟨hquiet, hquiet'⟩ := hhead.grows.quiet hgrows hquiet
        rw [List.map_cons, List.mem_cons, not_or] at hid
        rw [hrest.others hquiet' id hid.2, hclass hquiet, NodeMap.find?_insert, if_neg hid.1]
      · intro hquiet
        obtain ⟨hquiet, hquiet'⟩ := hhead.grows.quiet hgrows hquiet
        rw [hrest.digest hquiet', hclass hquiet]

/-! ## Units -/

/-- **A walk finds every repeated number.**  If the classes of a unit have different numbers, the
walk over the unit ends without faults just if all symbols, equations, operations, literals and
references have different numbers and every reference names a symbol of its class.  Then the
documents are those of the classes, as they are for the unit with numbers given out. -/
theorem run_errors_eq_nil_iff (capacity : Nat) (digest : String) {u : SourceUnit}
    (hclasses : (u.classes.values.map ClassDef.id).Nodup) :
    ((run capacity digest u).errors = [] ↔ u.fragmentIds.Nodup ∧ u.Resolves) ∧
      ((run capacity digest u).errors = [] →
        (run capacity digest u).unit = some ⟨digest, ModelDoc.directAll u⟩ ∧
          ∀ capacity', (run capacity' digest u.numbered).errors = [] ∧
            (run capacity' digest u.numbered).unit = (run capacity digest u).unit) := by
  have hcollects := collects_classes (some u.id) u.classes.values (start capacity digest)
  have hrun : run capacity digest u =
      ((u.classes.values.flatMap (ClassDef.walk (some u.id))).foldl step
        (start capacity digest)).leave (.sourceUnit u) := by
    rw [run, SourceUnit.walk, foldl_around_of_enter rfl]
  generalize (u.classes.values.flatMap (ClassDef.walk (some u.id))).foldl step
    (start capacity digest) = t at hcollects hrun
  have hids : (fragmentsOf (u.classes.values.flatMap ClassDef.nodes)).map Prod.fst =
      u.fragmentIds := by
    have hunit : fragmentsOf u.nodes =
        fragmentsOf (u.classes.values.flatMap ClassDef.nodes) ++ [] := fragmentsOf_append _ _
    rw [SourceUnit.fragmentIds, ← map_fst_fragmentsOf, hunit, List.append_nil]
  have hiff : (run capacity digest u).errors = [] ↔ u.fragmentIds.Nodup ∧ u.Resolves := by
    rw [hrun, ← hids, ← u.faults_eq_nil_iff]
    refine hcollects.quiet_iff.trans (and_congr_left fun _ => ?_)
    -- an empty table has room for all numbers
    exact and_iff_left fun p _ => FragmentTable.get?_withCapacity capacity p.1
  refine ⟨hiff, fun hquiet => ?_⟩
  have hresolves : u.faults = [] := u.faults_eq_nil_iff.mpr (hiff.mp hquiet).2
  have hunit : (run capacity digest u).unit = some ⟨digest, ModelDoc.directAll u⟩ := by
    rw [hrun] at hquiet ⊢
    have hmodels : t.modelsOf u = ModelDoc.directAll u :=
      modelsOf_eq (hcollects.documents hquiet hclasses)
    have hdigest : t.sourceDigest = digest := hcollects.digest hquiet
    rw [leave, hmodels, hdigest]
  refine ⟨hunit, fun capacity' => ?_⟩
  obtain ⟨-, herrors, hnumbered⟩ := run_numbered capacity' digest u
  rw [herrors, hnumbered, hunit]
  exact ⟨hresolves, rfl⟩

/-! ### Two classes -/

/-- A class with one symbol, both with numbers. -/
def lone (name symbol : String) (classId symbolId : Nat) : ClassDef :=
  ⟨name, .ofList [(symbol, ⟨symbol, 0, .empty, none, none, symbolId⟩)], [], classId⟩

/-- Two classes with a symbol each: the number of the first symbol is `40`. -/
def neighbours (id : Nat) : SourceUnit :=
  ⟨.ofList [("A", lone "A" "x" 1 40), ("B", lone "B" "y" 2 id)], 0⟩

/-- The numbers need not be consecutive, but the symbols may not share one, even in different
classes. -/
theorem run_neighbours :
    (∀ id, ((neighbours id).classes.values.map ClassDef.id).Nodup) ∧
      (run 0 "" (neighbours 7)).errors = [] ∧
      (run 0 "" (neighbours 7)).unit = some ⟨"", ModelDoc.directAll (neighbours 7)⟩ ∧
      (run 0 "" (neighbours 40)).errors ≠ [] := by
  have hclasses : ∀ id, ((neighbours id).classes.values.map ClassDef.id).Nodup := by
    intro id
    show [1, 2].Nodup
    decide
  have hids : ∀ id, (neighbours id).fragmentIds = [40, id] := fun _ => rfl
  have hresolves : (neighbours 7).Resolves := by
    unfold SourceUnit.Resolves
    decide +kernel
  have hquiet : (run 0 "" (neighbours 7)).errors = [] := by
    rw [(run_errors_eq_nil_iff 0 "" (hclasses 7)).1, hids]
    exact ⟨by decide, hresolves⟩
  refine ⟨hclasses, hquiet, ((run_errors_eq_nil_iff 0 "" (hclasses 7)).2 hquiet).1, ?_⟩
  intro hquiet'
  rw [(run_errors_eq_nil_iff 0 "" (hclasses 40)).1, hids] at hquiet'
  exact absurd hquiet'.1 (by decide)

end Assembly

end Emission

end FlatModel
