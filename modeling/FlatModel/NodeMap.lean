/-!
# Maps from node numbers

A finite map from natural numbers, kept as a list of entries with increasing numbers.  Writing a
number a second time replaces its value.
-/

namespace FlatModel

universe u

/-- Values by node number, in increasing order of the numbers. -/
structure NodeMap (α : Type u) where
  /-- The numbers with their values. -/
  entries : List (Nat × α)

namespace NodeMap

variable {α : Type u}

/-- The map without entries. -/
def empty : NodeMap α := ⟨[]⟩

/-- The value of a number. -/
def find? (m : NodeMap α) (id : Nat) : Option α := m.entries.lookup id

/-- Entries after writing: behind all smaller numbers, in place of an equal one. -/
def insertEntry (id : Nat) (value : α) : List (Nat × α) → List (Nat × α)
  | [] => [(id, value)]
  | (k, v) :: rest =>
      if k < id then (k, v) :: insertEntry id value rest
      else if k = id then (id, value) :: rest
      else (id, value) :: (k, v) :: rest

/-- The map with `value` at `id`. -/
def insert (m : NodeMap α) (id : Nat) (value : α) : NodeMap α := ⟨insertEntry id value m.entries⟩

/-- The empty map has no values. -/
@[simp] theorem find?_empty (id : Nat) : (empty : NodeMap α).find? id = none := rfl

/-- Looking up in a list with a first entry. -/
theorem lookup_cons_eq_ite (j k : Nat) (v : α) (rest : List (Nat × α)) :
    ((k, v) :: rest).lookup j = if j = k then some v else rest.lookup j := by
  by_cases h : j = k
  · rw [if_pos h, h]
    exact List.lookup_cons_self
  · rw [if_neg h, List.lookup_cons, beq_false_of_ne h]

/-- Writing changes the value of one number only. -/
theorem lookup_insertEntry (id : Nat) (value : α) (entries : List (Nat × α)) (j : Nat) :
    (insertEntry id value entries).lookup j = if j = id then some value else entries.lookup j := by
  induction entries with
  | nil => rw [insertEntry, lookup_cons_eq_ite]
  | cons entry rest ih =>
      obtain ⟨k, v⟩ := entry
      rw [insertEntry]
      split
      · rename_i hk
        rw [lookup_cons_eq_ite, lookup_cons_eq_ite, ih]
        by_cases hj : j = k
        · simp [hj, Nat.ne_of_lt hk]
        · simp [hj]
      · split
        · rename_i hk
          subst hk
          rw [lookup_cons_eq_ite, lookup_cons_eq_ite]
          by_cases hj : j = k <;> simp [hj]
        · rw [lookup_cons_eq_ite]

/-- Writing changes the value of one number only. -/
@[simp] theorem find?_insert (m : NodeMap α) (id : Nat) (value : α) (j : Nat) :
    (m.insert id value).find? j = if j = id then some value else m.find? j :=
  lookup_insertEntry id value m.entries j

end NodeMap

end FlatModel
