/-!
# The table of fragments

The fragments of the nodes by node number.  Every node gets one fragment: a second one for a number
is refused and the first one stays.  The table grows as far as the numbers demand.

* `FragmentTable.get?` — the fragment of a node, the view through which the rest is described.
* `FragmentTable.insert` — a fragment is written unless there is one: `insert_of_isSome` says that the
  table stays as it is then, `get?_insert` what is changed otherwise.
* `FragmentTable.insert?` — the table with one more fragment: `insert?_eq_none_iff` says when it is
  refused, `get?_of_insert?` what it changes.
-/

namespace FlatModel.Emission

/-- A slot for each node number, empty until the node gets its fragment. -/
structure FragmentTable where
  /-- The slots. -/
  slots : Array (Option String)
  deriving Inhabited

namespace FragmentTable

/-- The table without slots. -/
def empty : FragmentTable := ⟨#[]⟩

/-- A table with empty slots for so many nodes. -/
def withCapacity (count : Nat) : FragmentTable := ⟨Array.replicate count none⟩

/-- The fragment of a node. -/
def get? (t : FragmentTable) (id : Nat) : Option String := (t.slots[id]?).join

/-- The table with enough slots for a node number. -/
def grow (t : FragmentTable) (id : Nat) : FragmentTable :=
  ⟨t.slots ++ Array.replicate (id + 1 - t.slots.size) none⟩

/-- Write the fragment of a node: there is a slot for it then, and a slot that is filled is kept.
The first part tells whether the fragment was written.  Node numbers have no bound here; where they
are machine words, the size `id + 1` of the new slots overflows at the largest of them. -/
def insert (t : FragmentTable) (id : Nat) (text : String) : Bool × FragmentTable :=
  let grown := t.grow id
  match grown.get? id with
  | some _ => (false, grown)
  | none => (true, ⟨grown.slots.setIfInBounds id (some text)⟩)

/-- The table with a fragment for a node, or nothing if the node has one already. -/
def insert? (t : FragmentTable) (id : Nat) (text : String) : Option FragmentTable :=
  match t.insert id text with
  | (true, written) => some written
  | (false, _) => none

/-- The number of nodes that have a fragment. -/
def count (t : FragmentTable) : Nat := t.slots.countP Option.isSome

/-- Whether no node has a fragment. -/
def isEmpty (t : FragmentTable) : Bool := t.count == 0

/-! ## What the operations do to the fragments -/

/-- A table without fragments has none for any node. -/
@[simp] theorem get?_withCapacity (count id : Nat) : (withCapacity count).get? id = none := by
  simp only [get?, withCapacity, Array.getElem?_replicate]
  split <;> rfl

/-- More slots are no more fragments. -/
@[simp] theorem get?_grow (t : FragmentTable) (id j : Nat) : (t.grow id).get? j = t.get? j := by
  simp only [get?, grow, Array.getElem?_append, Array.getElem?_replicate]
  split
  · rfl
  · rename_i h
    rw [Array.getElem?_eq_none (Nat.le_of_not_lt h)]
    split <;> rfl

/-- There are as many slots as before, or just enough for the number. -/
theorem size_grow (t : FragmentTable) (id : Nat) :
    (t.grow id).slots.size = max t.slots.size (id + 1) := by
  simp only [grow, Array.size_append, Array.size_replicate]
  omega

/-- Where there is a slot already, no more are made. -/
theorem grow_of_isSome {t : FragmentTable} {id : Nat} (h : (t.get? id).isSome) : t.grow id = t := by
  have inside : id < t.slots.size := by
    rcases Nat.lt_or_ge id t.slots.size with hlt | hge
    · exact hlt
    · rw [get?, Array.getElem?_eq_none hge] at h
      cases h
  have enough : id + 1 - t.slots.size = 0 := by omega
  rw [grow, enough, Array.replicate_zero, Array.append_empty]

/-- **Where there is a fragment, nothing is written**, and the whole table stays as it is. -/
theorem insert_of_isSome {t : FragmentTable} {id : Nat} (h : (t.get? id).isSome) (text : String) :
    t.insert id text = (false, t) := by
  obtain ⟨first, hfirst⟩ := Option.isSome_iff_exists.mp h
  simp only [insert, grow_of_isSome h, hfirst]

/-- Where there is none, the fragment is written into its slot. -/
theorem insert_of_eq_none {t : FragmentTable} {id : Nat} (h : t.get? id = none) (text : String) :
    t.insert id text = (true, ⟨(t.grow id).slots.setIfInBounds id (some text)⟩) := by
  simp only [insert, get?_grow, h]

/-- Writing a fragment changes that of one node only. -/
theorem get?_insert {t : FragmentTable} {id : Nat} (h : t.get? id = none) (text : String)
    (j : Nat) : (t.insert id text).2.get? j = if j = id then some text else t.get? j := by
  rw [insert_of_eq_none h]
  split
  · rename_i hj
    subst hj
    have inside : j < (t.grow j).slots.size := by
      rw [size_grow]
      omega
    simp [get?, Array.getElem?_setIfInBounds_self_of_lt inside]
  · rename_i hj
    rw [get?, Array.getElem?_setIfInBounds_ne (Ne.symm hj)]
    exact get?_grow t id j

/-- Exactly the nodes that have a fragment are refused another. -/
theorem insert?_eq_none_iff (t : FragmentTable) (id : Nat) (text : String) :
    t.insert? id text = none ↔ (t.get? id).isSome := by
  unfold insert?
  rcases h : t.get? id with _ | first
  · rw [insert_of_eq_none h]
    simp
  · rw [insert_of_isSome (by rw [h]; rfl)]
    simp

/-- Writing a fragment changes that of one node only. -/
theorem get?_of_insert? {t u : FragmentTable} {id : Nat} {text : String}
    (h : t.insert? id text = some u) (j : Nat) :
    u.get? j = if j = id then some text else t.get? j := by
  have hnone : t.get? id = none := by
    rw [← Option.not_isSome_iff_eq_none, ← insert?_eq_none_iff t id text, h]
    nofun
  unfold insert? at h
  rw [insert_of_eq_none hnone] at h
  rw [← get?_insert hnone text j, insert_of_eq_none hnone, ← Option.some.inj h]

end FragmentTable

end FlatModel.Emission
