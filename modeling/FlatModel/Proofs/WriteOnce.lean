import Mathlib.Data.Finset.Card
import Mathlib.Data.List.Induction
import FlatModel.Emission.FragmentTable

/-!
# Fragments are written once

What a table answers after any operations is told by the inserts among them: the first one of a
number writes its fragment, and no later one changes anything.

* `TableOp`, `FragmentTable.perform`, `FragmentTable.after` — operations, what one of them answers
  and leaves behind, and the table after a whole history.
* `TableOp.inserts`, `TableOp.ids` — the inserts of a history and their numbers.
* `FragmentTable.Remembers` — a table that holds what a history wrote; `Remembers.perform` is the
  step, `remembers_after` the run.
* `FragmentTable.write_once` — the answers after a history, whatever room there was at the start.
-/

namespace FlatModel.Emission

/-! ## Operations -/

/-- An operation on a table. -/
inductive TableOp where
  /-- Write the fragment of a node. -/
  | insert (id : Nat) (text : String)
  /-- Look for the fragment of a node. -/
  | get (id : Nat)
  deriving DecidableEq, Repr

/-- What an operation answers. -/
inductive TableAnswer where
  /-- Whether the fragment was written. -/
  | inserted (written : Bool)
  /-- The fragment that was found. -/
  | found (text : Option String)
  deriving DecidableEq, Repr

namespace TableOp

/-- The insert that an operation is. -/
def insert? : TableOp → Option (Nat × String)
  | .insert id text => some (id, text)
  | .get _ => none

/-- The inserts of a history, refused ones included. -/
def inserts (history : List TableOp) : List (Nat × String) := history.filterMap insert?

/-- The numbers of the inserts of a history. -/
def ids (history : List TableOp) : List Nat := (inserts history).map Prod.fst

/-- The answer that the history before an operation asks for: the first insert of a number is done,
and what it wrote is found. -/
def answer (history : List TableOp) : TableOp → TableAnswer
  | .insert id _ => .inserted (decide (id ∉ ids history))
  | .get id => .found ((inserts history).lookup id)

/-- One more insert stands behind the others. -/
theorem inserts_concat_insert (history : List TableOp) (id : Nat) (text : String) :
    inserts (history ++ [.insert id text]) = inserts history ++ [(id, text)] := by
  simp [inserts, insert?]

/-- Looking for a fragment is no insert. -/
theorem inserts_concat_get (history : List TableOp) (id : Nat) :
    inserts (history ++ [.get id]) = inserts history := by
  simp [inserts, insert?]

/-- The number of one more insert stands behind the others. -/
theorem ids_concat_insert (history : List TableOp) (id : Nat) (text : String) :
    ids (history ++ [.insert id text]) = ids history ++ [id] := by
  rw [ids, inserts_concat_insert, List.map_append]
  rfl

/-- Looking for a fragment inserts no number. -/
theorem ids_concat_get (history : List TableOp) (id : Nat) :
    ids (history ++ [.get id]) = ids history := by
  rw [ids, inserts_concat_get, ids]

/-- Something was inserted under exactly the numbers of the inserts. -/
theorem isSome_lookup_inserts {history : List TableOp} {id : Nat} :
    ((inserts history).lookup id).isSome ↔ id ∈ ids history := by
  rw [List.lookup_isSome_iff, ids, List.mem_map]
  constructor
  · rintro ⟨p, hp, hid⟩
    exact ⟨p, hp, (beq_iff_eq.mp hid).symm⟩
  · rintro ⟨p, hp, rfl⟩
    exact ⟨p, hp, BEq.rfl⟩

end TableOp

namespace FragmentTable

open TableOp

/-- An operation: its answer and the table after it. -/
def perform (t : FragmentTable) : TableOp → TableAnswer × FragmentTable
  | .insert id text => (.inserted (t.insert id text).1, (t.insert id text).2)
  | .get id => (.found (t.get? id), t)

/-- The table after the operations of a history. -/
def after (t : FragmentTable) (history : List TableOp) : FragmentTable :=
  history.foldl (fun t op => (t.perform op).2) t

variable {t : FragmentTable}

/-- One more operation comes after the others. -/
theorem after_concat (t : FragmentTable) (history : List TableOp) (op : TableOp) :
    t.after (history ++ [op]) = ((t.after history).perform op).2 := by
  rw [after, List.foldl_append]
  rfl

/-! ## Numbers of fragments and of slots -/

/-- A table without fragments counts none. -/
theorem count_withCapacity (capacity : Nat) : (withCapacity capacity).count = 0 := by
  simp [count, withCapacity, Array.countP_replicate]

/-- Empty slots do not count. -/
theorem count_grow (t : FragmentTable) (id : Nat) : (t.grow id).count = t.count := by
  simp [count, grow, Array.countP_append, Array.countP_replicate]

/-- **A fragment that is written counts once.** -/
theorem count_insert {id : Nat} (h : t.get? id = none) (text : String) :
    (t.insert id text).2.count = t.count + 1 := by
  have inside : id < (t.grow id).slots.size := by
    rw [size_grow]
    omega
  have hempty : (t.grow id).slots[id] = none := by
    have hget : (t.grow id).get? id = none := by rw [get?_grow, h]
    rwa [get?, Array.getElem?_eq_getElem inside, Option.join_some] at hget
  rw [insert_of_eq_none h, ← count_grow t id]
  simp [count, Array.setIfInBounds, inside, Array.countP_set, hempty]

/-- After an insert there are as many slots as before, or just enough for its number, whether it was
done or not. -/
theorem size_insert (t : FragmentTable) (id : Nat) (text : String) :
    (t.insert id text).2.slots.size = max t.slots.size (id + 1) := by
  rw [← size_grow]
  rcases h : t.get? id with _ | first
  · rw [insert_of_eq_none h, Array.size_setIfInBounds]
  · have hsome : (t.get? id).isSome := by rw [h]; rfl
    rw [insert_of_isSome hsome, grow_of_isSome hsome]

/-! ## What a table remembers -/

/-- The table holds what the history wrote into a table with room for so many nodes. -/
structure Remembers (t : FragmentTable) (capacity : Nat) (history : List TableOp) : Prop where
  /-- Each number has the fragment of its first insert. -/
  get?_eq : ∀ id, t.get? id = (inserts history).lookup id
  /-- There are as many fragments as different numbers. -/
  count_eq : t.count = (ids history).toFinset.card
  /-- The slots reach up to the largest number, or as far as the room did. -/
  size_eq : t.slots.size = ((ids history).map (· + 1)).foldl max capacity

variable {capacity : Nat} {history : List TableOp}

/-- Fragments are there for exactly the numbers that were inserted. -/
theorem Remembers.isSome_iff (h : t.Remembers capacity history) (id : Nat) :
    (t.get? id).isSome ↔ id ∈ ids history := by
  rw [h.get?_eq, isSome_lookup_inserts]

/-- An insert under a number that was inserted before is refused and leaves the table unchanged. -/
theorem Remembers.insert_of_mem (h : t.Remembers capacity history) {id : Nat}
    (hid : id ∈ ids history) (text : String) : t.insert id text = (false, t) :=
  insert_of_isSome ((h.isSome_iff id).mpr hid) text

/-- The first insert of a number finds no fragment there. -/
theorem Remembers.get?_of_not_mem (h : t.Remembers capacity history) {id : Nat}
    (hid : id ∉ ids history) : t.get? id = none := by
  rw [← Option.not_isSome_iff_eq_none, h.isSome_iff]
  exact hid

/-- The answer of an operation is told by the history before it. -/
theorem Remembers.answer (h : t.Remembers capacity history) (op : TableOp) :
    (t.perform op).1 = op.answer history := by
  cases op with
  | get id => exact congrArg TableAnswer.found (h.get?_eq id)
  | insert id text =>
      refine congrArg TableAnswer.inserted ?_
      by_cases hid : id ∈ ids history
      · rw [h.insert_of_mem hid, decide_eq_false (not_not_intro hid)]
      · rw [insert_of_eq_none (h.get?_of_not_mem hid), decide_eq_true hid]

/-- **One operation**: the table after it holds what it wrote, too. -/
theorem Remembers.perform (h : t.Remembers capacity history) (op : TableOp) :
    (t.perform op).2.Remembers capacity (history ++ [op]) := by
  cases op with
  | get id =>
      constructor
      · rw [inserts_concat_get]
        exact h.get?_eq
      · rw [ids_concat_get]
        exact h.count_eq
      · rw [ids_concat_get]
        exact h.size_eq
  | insert id text =>
      show (t.insert id text).2.Remembers capacity _
      have hsize : (t.insert id text).2.slots.size =
          ((ids (history ++ [.insert id text])).map (· + 1)).foldl max capacity := by
        rw [size_insert, h.size_eq, ids_concat_insert, List.map_append, List.foldl_append]
        rfl
      by_cases hid : id ∈ ids history
      · -- the lookup stops at the first insert, so a refused one behind it does not show
        refine ⟨fun j => ?_, ?_, hsize⟩
        · rw [h.insert_of_mem hid, h.get?_eq, inserts_concat_insert, List.lookup_append]
          by_cases hj : j = id
          · obtain ⟨first, hfirst⟩ := Option.isSome_iff_exists.mp (isSome_lookup_inserts.mpr hid)
            rw [hj, hfirst, Option.some_or]
          · rw [List.lookup_cons, beq_false_of_ne hj, List.lookup_nil, Option.or_none]
        · rw [h.insert_of_mem hid, h.count_eq, ids_concat_insert, List.toFinset_append,
            Finset.union_eq_left.mpr]
          simpa using hid
      · have hnone := h.get?_of_not_mem hid
        refine ⟨fun j => ?_, ?_, hsize⟩
        · rw [get?_insert hnone, h.get?_eq, inserts_concat_insert, List.lookup_append]
          by_cases hj : j = id
          · rw [if_pos hj, hj, ← h.get?_eq, hnone, Option.none_or, List.lookup_cons_self]
          · rw [if_neg hj, List.lookup_cons, beq_false_of_ne hj, List.lookup_nil, Option.or_none]
        · rw [count_insert hnone, h.count_eq, ids_concat_insert, List.toFinset_append,
            List.toFinset_cons, List.toFinset_nil, Finset.union_insert, Finset.union_empty,
            Finset.card_insert_of_notMem (by simpa using hid)]

/-- **A whole history**: a table holds what was written into it. -/
theorem remembers_after (capacity : Nat) (history : List TableOp) :
    ((withCapacity capacity).after history).Remembers capacity history := by
  induction history using List.reverseRecOn with
  | nil =>
      exact ⟨get?_withCapacity capacity, count_withCapacity capacity,
        Array.size_replicate⟩
  | append_singleton history op ih =>
      rw [after_concat]
      exact ih.perform op

/-- **Fragments are written once.** After any operations on a table with any room at the start, none
included, the answer of the next operation is told by the inserts before it: a number has the
fragment of its first insert, and only the first one is done; a later one leaves the whole table as it
is.  There are as many fragments as different numbers, and the slots reach as far as the room or the
largest number.  So the room at the start changes none of the answers. -/
theorem write_once (capacity capacity' : Nat) (history : List TableOp) :
    let t := (withCapacity capacity).after history
    let t' := (withCapacity capacity').after history
    (∀ id, t.get? id = (inserts history).lookup id) ∧
      (∀ id text, t.insert id text =
        if id ∈ ids history then (false, t) else (true, t.after [.insert id text])) ∧
      t.count = (ids history).toFinset.card ∧
      (t.isEmpty = true ↔ ids history = []) ∧
      t.slots.size = ((ids history).map (· + 1)).foldl max capacity ∧
      ((∀ op, (t'.perform op).1 = (t.perform op).1) ∧ t'.count = t.count ∧
        t'.isEmpty = t.isEmpty) ∧
      empty = withCapacity 0 := by
  intro t t'
  have ht : t.Remembers capacity history := remembers_after capacity history
  have ht' : t'.Remembers capacity' history := remembers_after capacity' history
  have hcount : t'.count = t.count := ht'.count_eq.trans ht.count_eq.symm
  refine ⟨ht.get?_eq, ?_, ht.count_eq, ?_, ht.size_eq, ⟨fun op => ?_, hcount, ?_⟩, rfl⟩
  · intro id text
    split
    · rename_i hid
      exact ht.insert_of_mem hid text
    · rename_i hid
      show _ = (true, (t.insert id text).2)
      rw [insert_of_eq_none (ht.get?_of_not_mem hid)]
  · rw [isEmpty, beq_iff_eq, ht.count_eq, Finset.card_eq_zero, List.toFinset_eq_empty_iff]
  · rw [ht'.answer, ht.answer]
  · rw [isEmpty, isEmpty, hcount]

/-- Two inserts beyond the room, the first of them twice. -/
def twoFragments : List TableOp :=
  [.insert 3 "k", .get 0, .insert 3 "x", .insert 1 "y", .get 3]

example : ((withCapacity 2).after twoFragments).slots = #[none, some "y", none, some "k"] := by
  rfl

end FragmentTable

end FlatModel.Emission
