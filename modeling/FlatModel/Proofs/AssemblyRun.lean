import FlatModel.Emission.Assembly
import FlatModel.Proofs.DirectDocument

/-!
# What an assembly makes of a unit

A run over numbered nodes writes their texts into the slots of their numbers and notes the
references that cannot be resolved, and nothing else.

* `Expression.faults`, …, `ClassDef.faults` — the references that name no symbol of their class, in
  order of the walk.
* `FragmentTable.Fills` — a table with slots filled from a number on.
* `Assembly.Writes` — what a part of a run inside of a class does: it fills slots and notes faults.
  Parts compose by `Assembly.Writes.trans`.
* `Assembly.writes_expression`, `writes_symbol`, `writes_equation` — the walk through a numbered node
  writes its slots.
* `Assembly.run_class`, `forms_classes` — the walk through numbered classes also leaves their
  documents.
* `build_eq` — the result of a build, by recursion over the unit alone.
-/

namespace FlatModel

open Emission

/-! ## Faults -/

mutual

/-- The references of an expression that name no symbol of the scope. -/
def Expression.faults (scope : Emission.Scope) : Expression → List EmissionError
  | .literal _ _ => []
  | .reference _ name =>
      if scope.symbols.contains name then [] else [.unresolvedReference scope.name name]
  | .operation _ _ operands => Expression.faultsAll scope operands

/-- The references of expressions that name no symbol of the scope. -/
def Expression.faultsAll (scope : Emission.Scope) : List Expression → List EmissionError
  | [] => []
  | e :: rest => e.faults scope ++ Expression.faultsAll scope rest

end

/-- The names that may be referred to in a class. -/
def ClassDef.scope (c : ClassDef) : Emission.Scope := ⟨c.name, c.symbols.keys⟩

/-- The references of a symbol that name no symbol of the scope. -/
def Symbol.faults (scope : Emission.Scope) (s : Symbol) : List EmissionError :=
  Expression.faultsAll scope s.expressions

/-- The references of an equation that name no symbol of the scope. -/
def Equation.faults (scope : Emission.Scope) (e : Equation) : List EmissionError :=
  Expression.faultsAll scope [e.left, e.right]

/-- The references of a class that name none of its symbols. -/
def ClassDef.faults (c : ClassDef) : List EmissionError :=
  c.symbols.values.flatMap (Symbol.faults c.scope) ++ c.equations.flatMap (Equation.faults c.scope)

/-- The references of a unit that name no symbol of their class. -/
def SourceUnit.faults (u : SourceUnit) : List EmissionError :=
  u.classes.values.flatMap ClassDef.faults

/-- The scope of a numbered class. -/
theorem ClassDef.scope_number (c : ClassDef) (n : Nat) : (c.number n).1.scope = c.scope :=
  congrArg (Emission.Scope.mk c.name) (OrderedMap.map_fst_threadEntries Symbol.number _ n)

namespace Emission

/-! ## Filling a table from a number on -/

namespace FragmentTable

/-- No node from the number `n` on has a fragment. -/
def Fresh (t : FragmentTable) (n : Nat) : Prop := ∀ j, n ≤ j → t.get? j = none

/-- `u` holds what `t` holds for nodes before the number `n`, and slots from `n` on. -/
def Fills (t u : FragmentTable) (n : Nat) (slots : List (Option String)) : Prop :=
  ∀ j, u.get? j = if j < n then t.get? j else (slots[j - n]?).join

section fills

variable {t u v : FragmentTable} {m n : Nat} {slots slots' : List (Option String)}

/-- Nothing is filled. -/
theorem Fills.refl (h : t.Fresh n) : t.Fills t n [] := by
  intro j
  split
  · rfl
  · rename_i hj
    exact h j (Nat.le_of_not_lt hj)

/-- A slot stays empty. -/
theorem Fills.none (h : t.Fresh n) : t.Fills t n [none] := by
  intro j
  split
  · rfl
  · rename_i hj
    rw [h j (Nat.le_of_not_lt hj)]
    rcases j - n with _ | k <;> rfl

/-- Slots are filled one after the other. -/
theorem Fills.trans (h : t.Fills u n slots) (h' : u.Fills v m slots') (hm : m = n + slots.length) :
    t.Fills v n (slots ++ slots') := by
  subst hm
  intro j
  rw [h' j, h j]
  by_cases hj : j < n
  · rw [if_pos hj, if_pos hj, if_pos (Nat.lt_add_right _ hj)]
  · rw [if_neg hj, if_neg hj]
    split
    · rw [List.getElem?_append_left (by omega)]
    · rw [List.getElem?_append_right (by omega), Nat.sub_add_eq]

/-- The number after the slots is fresh. -/
theorem Fills.fresh (h : t.Fills u n slots) (hm : m = n + slots.length) : u.Fresh m := by
  intro j hj
  rw [h j, if_neg (by omega), List.getElem?_eq_none (by omega)]
  rfl

/-- The slots are shown. -/
theorem Fills.shows (h : t.Fills u n slots) : Shows u.get? n slots := by
  intro i x hx
  rw [h (n + i), if_neg (by omega), Nat.add_sub_cancel_left, hx]
  rfl

/-- An insertion at a fresh number. -/
theorem fills_of_insert? (h : t.Fresh n) {text : String} (hu : t.insert? n text = some u) :
    t.Fills u n [some text] := by
  intro j
  rw [get?_of_insert? hu j]
  rcases Nat.lt_trichotomy j n with hj | rfl | hj
  · rw [if_neg (Nat.ne_of_lt hj), if_pos hj]
  · rw [if_pos rfl, if_neg (Nat.lt_irrefl j), Nat.sub_self]
    rfl
  · rw [if_neg (Nat.ne_of_gt hj), if_neg (Nat.lt_asymm hj), h j (Nat.le_of_lt hj),
      List.getElem?_eq_none (Nat.sub_pos_of_lt hj)]
    rfl

end fills

end FragmentTable

namespace Assembly

/-! ## Parts of a run -/

/-- What the part of a run does that is inside of a class and starts at the number `n`: it fills
slots and notes faults. -/
structure Writes (t t' : Assembly) (n : Nat) (slots : List (Option String))
    (faults : List EmissionError) : Prop where
  /-- The slots are filled. -/
  fills : t.table.Fills t'.table n slots
  /-- Apart from that there are only more faults. -/
  rest : t' = { t with table := t'.table, errors := t.errors ++ faults }

section writes

variable {t t' t'' : Assembly} {m n : Nat} {slots slots' : List (Option String)}
  {faults faults' : List EmissionError}

/-- Nothing is written. -/
theorem Writes.refl (h : t.table.Fresh n) : t.Writes t n [] [] where
  fills := .refl h
  rest := by rw [List.append_nil]

/-- One part after the other. -/
theorem Writes.trans (h : t.Writes t' n slots faults) (h' : t'.Writes t'' m slots' faults')
    (hm : m = n + slots.length) : t.Writes t'' n (slots ++ slots') (faults ++ faults') where
  fills := h.fills.trans h'.fills hm
  rest := by rw [h'.rest, h.rest, List.append_assoc]

/-- Storing a fragment at a fresh number. -/
theorem writes_emit (h : t.table.Fresh n) (text : String) :
    t.Writes (t.emit n text) n [some text] [] := by
  have hsome : t.table.insert? n text ≠ none := by
    rw [ne_eq, FragmentTable.insert?_eq_none_iff, h n (Nat.le_refl n)]
    exact Bool.false_ne_true
  obtain ⟨table, htable⟩ := Option.ne_none_iff_exists'.mp hsome
  rw [emit, htable]
  constructor
  · exact FragmentTable.fills_of_insert? h htable
  · show _ = { t with table := table, errors := t.errors ++ [] }
    rw [List.append_nil]

/-- A part with a fragment stored after it. -/
theorem Writes.emit (h : t.Writes t' n slots faults) (hm : m = n + slots.length) (text : String) :
    t.Writes (t'.emit m text) n (slots ++ [some text]) faults := by
  have hboth := h.trans (writes_emit (h.fills.fresh hm) text) hm
  rw [List.append_nil] at hboth
  exact hboth

/-- A part does not change the scope. -/
theorem Writes.scope_eq (h : t.Writes t' n slots faults) : t'.scope = t.scope := by
  rw [h.rest]

end writes

/-! ## Single steps -/

section steps

variable {t : Assembly} {n : Nat}

/-- Looking up a name. -/
theorem writes_resolve (h : t.table.Fresh n) {scope : Emission.Scope}
    (hscope : t.scope = some scope) (id : Nat) (name : String) :
    t.Writes (t.resolve name) n [] ((Expression.reference id name).faults scope) := by
  rw [resolve, hscope, Expression.faults]
  dsimp only
  split
  · exact .refl h
  · exact ⟨.refl h, rfl⟩

/-- The fragment of a node that has one. -/
theorem take_eq {id : Nat} {text : String} (h : t.table.get? id = some text) :
    t.take id = (text, t) := by
  rw [take, h]

/-- The fragments of expressions that are found with their texts. -/
theorem takeAll_eq : ∀ {es : List Expression},
    (∀ e ∈ es, t.table.get? e.id = some e.translation) →
      t.takeAll (es.map Expression.id) = (Expression.translations es, t)
  | [], _ => rfl
  | e :: rest, h => by
      have ih := takeAll_eq fun a ha => h a (List.mem_cons_of_mem e ha)
      rw [List.map_cons, takeAll, take_eq (h e List.mem_cons_self), ih, Expression.translations]

/-- Leaving an operation whose operands are found. -/
theorem leave_operation {operands : List Expression} (id : Nat) (operator : String)
    (h : ∀ e ∈ operands, t.table.get? e.id = some e.translation) :
    t.leave (.content (.operation id operator operands)) =
      t.emit id (renderOperation operator (Expression.translations operands)) := by
  rw [leave, takeAll_eq h]

/-- Leaving an equation whose sides are found. -/
theorem leave_equation {e : Equation}
    (h : ∀ side ∈ [e.left, e.right], t.table.get? side.id = some side.translation) :
    t.leave (.equation e) = t.emit e.id e.translation := by
  have hleft := take_eq (h _ List.mem_cons_self)
  have hright := take_eq (h _ (List.mem_cons_of_mem _ List.mem_cons_self))
  rw [leave, hleft, hright]
  rfl

/-- Leaving a class whose document is built. -/
theorem leave_class {c : ClassDef} {d : ModelDoc} (h : ModelDoc.build c t.table = .ok d) :
    t.leave (.classDef c) = { t with models := t.models.insert c.id d, scope := none } := by
  rw [leave, h]

/-- The events of a visit: first the entry, at last the exit. -/
theorem foldl_around (t : Assembly) (node : Node) (parent : Option Nat) (inner : List Event) :
    (Event.around node parent inner).foldl step t =
      (inner.foldl step (t.enter node)).leave node := by
  rw [Event.around, List.foldl_cons, List.foldl_cons, List.foldl_append]
  rfl

/-- The events of a visit of a node whose entry changes nothing. -/
theorem foldl_around_of_enter {node : Node} (h : t.enter node = t) (parent : Option Nat)
    (inner : List Event) :
    (Event.around node parent inner).foldl step t = (inner.foldl step t).leave node := by
  rw [foldl_around, h]

/-- An expression is visited twice over, and something is made of it once. -/
theorem foldl_expression (t : Assembly) (e : Expression) (parent parent' : Option Nat)
    (inner : List Event) :
    (Event.around (.expression e) parent (Event.around (.content e) parent' inner)).foldl step t =
      (inner.foldl step t).leave (.content e) := by
  rw [foldl_around_of_enter rfl, foldl_around_of_enter rfl]
  rfl

end steps

/-! ## Expressions -/

-- By recursion over the tree.  What carries it is that the number after a part is fresh again, and
-- that the operands are then found in the table with their texts.
mutual

/-- The walk through a numbered expression. -/
theorem writes_expression (parent : Option Nat) {scope : Emission.Scope} :
    ∀ (e : Expression) {t : Assembly} {n : Nat}, t.table.Fresh n → t.scope = some scope →
      t.Writes (((e.number n).1.walk parent).foldl step t) n e.slots (e.faults scope)
  | .literal _ value, t, n, h, _ => by
      rw [Expression.number, Expression.walk, foldl_expression]
      exact writes_emit h value.text
  | .reference id name, t, n, h, hscope => by
      rw [Expression.number, Expression.walk, foldl_expression]
      exact (writes_resolve h hscope id name).emit rfl (Identifier.sanitize name)
  | .operation id operator operands, t, n, h, hscope => by
      have hoperands :=
        writes_expressions (some (Expression.numberAll operands n).2) operands h hscope
      rw [Expression.number, Expression.walk, foldl_expression,
        leave_operation _ _ (Expression.shows_ids hoperands.fills.shows),
        Expression.translations_numberAll]
      exact hoperands.emit (Expression.numberAll_snd operands n) _

/-- The walk through numbered expressions. -/
theorem writes_expressions (parent : Option Nat) {scope : Emission.Scope} :
    ∀ (es : List Expression) {t : Assembly} {n : Nat}, t.table.Fresh n → t.scope = some scope →
      t.Writes ((Expression.walkAll parent (Expression.numberAll es n).1).foldl step t) n
        (Expression.slotsAll es) (Expression.faultsAll scope es)
  | [], _, _, h, _ => .refl h
  | e :: rest, t, n, h, hscope => by
      have hid := e.number_snd n
      have hhead := writes_expression parent e h hscope
      have htail := writes_expressions parent rest (hhead.fills.fresh hid)
        (hhead.scope_eq.trans hscope)
      rw [Expression.numberAll, Expression.walkAll, List.foldl_append]
      exact hhead.trans htail hid

end

/-! ## Symbols and equations -/

/-- The walk through both sides of an equation. -/
theorem walk_sides (e : Equation) (parent : Option Nat) :
    e.left.walk parent ++ e.right.walk parent = Expression.walkAll parent [e.left, e.right] := by
  rw [Expression.walkAll, Expression.walkAll, Expression.walkAll, List.append_nil]

section members

variable {scope : Emission.Scope} (parent : Option Nat)

/-- The walk through a numbered symbol. -/
theorem writes_symbol (s : Symbol) {t : Assembly} {n : Nat} (h : t.table.Fresh n)
    (hscope : t.scope = some scope) :
    t.Writes (((s.number n).1.walk parent).foldl step t) n s.slots (s.faults scope) := by
  have hinner := writes_expressions (some (s.number n).1.id) s.expressions h hscope
  rw [s.expressions_number n] at hinner
  rw [Symbol.walk, foldl_around_of_enter rfl]
  exact hinner.emit (s.number_id n) (Identifier.sanitize s.name)

/-- The walk through numbered symbols. -/
theorem writes_symbols : ∀ (entries : List (String × Symbol)) {t : Assembly} {n : Nat},
    t.table.Fresh n → t.scope = some scope →
      t.Writes ((((OrderedMap.threadEntries Symbol.number entries n).1.map Prod.snd).flatMap
          (Symbol.walk parent)).foldl step t) n
        ((entries.map Prod.snd).flatMap Symbol.slots)
        ((entries.map Prod.snd).flatMap (Symbol.faults scope))
  | [], _, _, h, _ => .refl h
  | (_, s) :: rest, t, n, h, hscope => by
      have hid := s.number_snd n
      have hhead := writes_symbol parent s h hscope
      have htail := writes_symbols rest (hhead.fills.fresh hid) (hhead.scope_eq.trans hscope)
      rw [OrderedMap.threadEntries, List.map_cons, List.flatMap_cons, List.foldl_append]
      exact hhead.trans htail hid

/-- The walk through a numbered equation. -/
theorem writes_equation (e : Equation) {t : Assembly} {n : Nat} (h : t.table.Fresh n)
    (hscope : t.scope = some scope) :
    t.Writes (((e.number n).1.walk parent).foldl step t) n e.slots (e.faults scope) := by
  have hinner := writes_expressions (some (e.number n).1.id) [e.left, e.right] h hscope
  have hsides := Expression.shows_ids hinner.fills.shows
  rw [e.sides_number] at hinner hsides
  rw [Equation.walk, walk_sides, foldl_around_of_enter rfl, leave_equation hsides,
    e.translation_number]
  exact hinner.emit (e.number_id n) e.translation

/-- The walk through numbered equations. -/
theorem writes_equations : ∀ (es : List Equation) {t : Assembly} {n : Nat}, t.table.Fresh n →
    t.scope = some scope →
      t.Writes (((Equation.numberAll es n).1.flatMap (Equation.walk parent)).foldl step t) n
        (es.flatMap Equation.slots) (es.flatMap (Equation.faults scope))
  | [], _, _, h, _ => .refl h
  | e :: rest, t, n, h, hscope => by
      have hid := e.number_snd n
      have hhead := writes_equation parent e h hscope
      have htail := writes_equations rest (hhead.fills.fresh hid) (hhead.scope_eq.trans hscope)
      rw [Equation.numberAll, List.flatMap_cons, List.foldl_append]
      exact hhead.trans htail hid

end members

/-! ## Classes -/

/-- The walk through the symbols and equations of a numbered class. -/
theorem writes_members (parent : Option Nat) (c : ClassDef) {t : Assembly} {n : Nat}
    (h : t.table.Fresh n) (hscope : t.scope = some c.scope) :
    t.Writes (((c.number n).1.symbols.values.flatMap (Symbol.walk parent) ++
          (c.number n).1.equations.flatMap (Equation.walk parent)).foldl step t) n
      (c.symbols.values.flatMap Symbol.slots ++ c.equations.flatMap Equation.slots) c.faults := by
  have hid := Symbol.thread_snd c.symbols.entries n
  have hsymbols := writes_symbols parent c.symbols.entries h hscope
  have hequations := writes_equations parent c.equations (hsymbols.fills.fresh hid)
    (hsymbols.scope_eq.trans hscope)
  rw [List.foldl_append]
  exact hsymbols.trans hequations hid

/-- The walk through a numbered class fills its slots, notes its faults, keeps its document under
its number and leaves its scope. -/
theorem run_class (parent : Option Nat) (c : ClassDef) {t : Assembly} {n : Nat}
    (h : t.table.Fresh n) :
    ∃ table, t.table.Fills table n c.slots ∧
      ((c.number n).1.walk parent).foldl step t =
        { t with
          table := table
          models := t.models.insert (c.number n).1.id (.direct c)
          errors := t.errors ++ c.faults
          scope := none } := by
  have hmembers := writes_members (some (c.number n).1.id) c
    (t := t.enter (.classDef (c.number n).1)) h (congrArg some (c.scope_number n))
  -- the slot of the class itself stays empty
  have hfills := hmembers.fills.trans (.none (hmembers.fills.fresh rfl)) rfl
  refine ⟨_, hfills, ?_⟩
  rw [ClassDef.walk, foldl_around, leave_class (ModelDoc.build_number (c := c) hfills.shows)]
  conv_lhs => rw [hmembers.rest]
  rfl

/-- What the walk through numbered classes does that starts at the number `n`. -/
structure Forms (t t' : Assembly) (n : Nat) (classes : List (String × ClassDef)) : Prop where
  /-- The slots of the classes are filled. -/
  fills : t.table.Fills t'.table n ((classes.map Prod.snd).flatMap ClassDef.slots)
  /-- The faults of the classes are noted. -/
  errors : t'.errors = t.errors ++ (classes.map Prod.snd).flatMap ClassDef.faults
  /-- Every class has its document. -/
  documents : ∀ p ∈ (OrderedMap.threadEntries ClassDef.number classes n).1,
    t'.models.find? p.2.id = some (.direct p.2)
  /-- The documents of other classes stay. -/
  others : ∀ j < n, t'.models.find? j = t.models.find? j
  /-- The digest stays. -/
  digest : t'.sourceDigest = t.sourceDigest

/-- **The walk through numbered classes.** -/
theorem forms_classes (parent : Option Nat) : ∀ (classes : List (String × ClassDef)) {t : Assembly}
    {n : Nat}, t.table.Fresh n →
      t.Forms ((((OrderedMap.threadEntries ClassDef.number classes n).1.map Prod.snd).flatMap
        (ClassDef.walk parent)).foldl step t) n classes
  | [], t, n, h => ⟨.refl h, (List.append_nil _).symm, nofun, fun _ _ => rfl, rfl⟩
  | (key, c) :: rest, t, n, h => by
      obtain ⟨hlast, hid⟩ := c.number_snd n
      have hn := c.le_number_id n
      obtain ⟨table, hfills, hrun⟩ := run_class parent c h
      have hrest := forms_classes parent rest
        (t := { t with
          table := table
          models := t.models.insert (c.number n).1.id (.direct c)
          errors := t.errors ++ c.faults
          scope := none }) (hfills.fresh hid)
      rw [OrderedMap.threadEntries, List.map_cons, List.flatMap_cons, List.foldl_append, hrun]
      refine ⟨hfills.trans hrest.fills hid, hrest.errors.trans (List.append_assoc _ _ _), ?_, ?_,
        hrest.digest⟩
      · intro p hp
        rcases List.mem_cons.mp hp with rfl | hp
        · -- the numbers of the classes after this one are larger
          have hlt : (c.number n).1.id < (c.number n).2 := by omega
          rw [hrest.others _ hlt, NodeMap.find?_insert, if_pos rfl, ModelDoc.direct_number]
        · exact hrest.documents p hp
      · intro j hj
        rw [hrest.others j (by omega), NodeMap.find?_insert, if_neg (by omega)]

end Assembly

/-! ## Units -/

/-- The documents of the classes of a unit, in order of the names the classes are stored under. -/
def ModelDoc.directAll (u : SourceUnit) : List ModelDoc :=
  (u.classes.sortedBy fun p q => p.1 ≤ q.1).values.map direct

/-- The documents of a unit do not depend on numbers. -/
theorem ModelDoc.directAll_numbered (u : SourceUnit) : directAll u.numbered = directAll u := by
  have hclasses : u.numbered.classes.mapValues direct = u.classes.mapValues direct :=
    OrderedMap.mapValues_thread direct_number u.classes 0
  have hsorted := OrderedMap.values_sortedBy_mapValues (fun p q => decide (p ≤ q)) direct
  rw [directAll, directAll, ← hsorted, ← hsorted, hclasses]

/-- The documents of the classes of a unit that all have one. -/
theorem Assembly.modelsOf_eq {t : Assembly} {u : SourceUnit}
    (h : ∀ c ∈ u.classes.values, t.models.find? c.id = some (.direct c)) :
    t.modelsOf u = ModelDoc.directAll u := by
  rw [modelsOf, ModelDoc.directAll, ← List.filterMap_eq_map]
  exact List.filterMap_congr fun c hc => h c (OrderedMap.mem_values_sortedBy.mp hc)

/-- **The run over a numbered unit.** -/
theorem Assembly.run_numbered (capacity : Nat) (digest : String) (u : SourceUnit) :
    (∀ j, (run capacity digest u.numbered).table.get? j = (u.slots[j]?).join) ∧
      (run capacity digest u.numbered).errors = u.faults ∧
      (run capacity digest u.numbered).unit = some ⟨digest, ModelDoc.directAll u⟩ := by
  have hforms := forms_classes (some u.numbered.id) u.classes.entries
    (t := start capacity digest) (n := 0) fun _ _ => FragmentTable.get?_withCapacity _ _
  have hmodels := modelsOf_eq (u := u.numbered) fun c hc => by
    obtain ⟨p, hp, rfl⟩ := List.mem_map.mp hc
    exact hforms.documents p hp
  rw [ModelDoc.directAll_numbered] at hmodels
  rw [run, SourceUnit.walk, foldl_around_of_enter rfl, leave]
  refine ⟨hforms.fills, hforms.errors, ?_⟩
  exact congrArg some (congrArg₂ UnitDoc.mk hforms.digest hmodels)

/-- **The result of a build**: the first reference that cannot be resolved, or the documents of the
classes and a table with the slots of the unit. -/
theorem build_eq (u : SourceUnit) :
    ∃ table : FragmentTable,
      (∀ j, table.get? j = (u.slots[j]?).join) ∧
      build u = match u.faults with
        | [] => .ok (⟨u.numbered.digest, ModelDoc.directAll u⟩, table)
        | fault :: _ => .error fault := by
  obtain ⟨htable, herrors, hunit⟩ :=
    Assembly.run_numbered u.numbered.nodeCount u.numbered.digest u
  refine ⟨_, htable, ?_⟩
  rw [build, herrors, hunit]
  rcases u.faults with _ | ⟨fault, rest⟩ <;> rfl

end Emission

end FlatModel
