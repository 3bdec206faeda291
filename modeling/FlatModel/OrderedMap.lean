/-!
# Maps that remember insertion order

A map from names to values that lists its entries in the order in which the names were first
inserted.  Inserting under a name that is already there replaces the value and keeps the place, so
the order of the names never changes except by a new name at the end.

That no name repeats is part of the type.  The view of a map is its list of entries.

* `OrderedMap.insert` — described by `keys_insert`.
* `OrderedMap.ofList` — pairs inserted one after the other.
* `OrderedMap.mapValues`, `OrderedMap.thread` — new values under the same names.
* `OrderedMap.sortedBy` — the entries in another order.
-/

namespace FlatModel

universe u v w

/-- Entries in the order of first insertion, no name twice. -/
structure OrderedMap (α : Type u) where
  /-- The names with their values, in order. -/
  entries : List (String × α)
  /-- No name occurs twice. -/
  nodup : (entries.map Prod.fst).Nodup

namespace OrderedMap

variable {α : Type u} {β : Type v}

/-- Two maps with the same entries in the same order are the same map. -/
@[ext] theorem ext_entries {m n : OrderedMap α} (h : m.entries = n.entries) : m = n := by
  cases m
  cases n
  cases h
  rfl

/-- The map without entries. -/
def empty : OrderedMap α := ⟨[], List.nodup_nil⟩

/-- Some map: the empty one. -/
instance : Inhabited (OrderedMap α) := ⟨empty⟩

/-- The names, in order. -/
def keys (m : OrderedMap α) : List String := m.entries.map Prod.fst

/-- The values, in order of their names. -/
def values (m : OrderedMap α) : List α := m.entries.map Prod.snd

/-- The value stored under a name. -/
def find? (m : OrderedMap α) (key : String) : Option α := m.entries.lookup key

/-- Whether the name has a value. -/
def contains (m : OrderedMap α) (key : String) : Bool := m.keys.contains key

/-! ## Insertion -/

/-- Entries after writing `value` under `key`: in place if the name is there, else at the end. -/
def insertEntry (key : String) (value : α) : List (String × α) → List (String × α)
  | [] => [(key, value)]
  | (k, v) :: rest =>
      if k = key then (key, value) :: rest else (k, v) :: insertEntry key value rest

/-- Writing adds its name at the end if it is new and leaves the names alone otherwise. -/
theorem map_fst_insertEntry (key : String) (value : α) (entries : List (String × α)) :
    (insertEntry key value entries).map Prod.fst =
      if key ∈ entries.map Prod.fst then entries.map Prod.fst
      else entries.map Prod.fst ++ [key] := by
  induction entries with
  | nil => simp [insertEntry]
  | cons entry rest ih =>
      obtain ⟨k, v⟩ := entry
      by_cases h : k = key
      · subst h
        simp [insertEntry]
      · have h' : ¬ key = k := fun e => h e.symm
        simp only [insertEntry, h, if_false, List.map_cons, ih, List.mem_cons, h', false_or]
        split <;> simp

/-- Writing keeps the names distinct. -/
theorem nodup_insertEntry (key : String) (value : α) {entries : List (String × α)}
    (h : (entries.map Prod.fst).Nodup) :
    ((insertEntry key value entries).map Prod.fst).Nodup := by
  rw [map_fst_insertEntry]
  split
  · exact h
  · rename_i hk
    rw [List.nodup_append]
    refine ⟨h, by simp, ?_⟩
    intro a ha b hb
    rw [List.mem_singleton] at hb
    intro e
    exact hk (hb ▸ e ▸ ha)

/-- The map with `value` under `key`. -/
def insert (m : OrderedMap α) (key : String) (value : α) : OrderedMap α :=
  ⟨insertEntry key value m.entries, nodup_insertEntry key value m.nodup⟩

/-- The names after an insertion. -/
theorem keys_insert (m : OrderedMap α) (key : String) (value : α) :
    (m.insert key value).keys = if key ∈ m.keys then m.keys else m.keys ++ [key] :=
  map_fst_insertEntry key value m.entries

/-- The map that results from inserting the pairs one after the other: of a repeated name the
first position counts and the last value. -/
def ofList (pairs : List (String × α)) : OrderedMap α :=
  pairs.foldl (fun m p => m.insert p.1 p.2) empty

/-! ## Changing values and order -/

/-- Apply a function to every value. -/
def mapValues (f : α → β) (m : OrderedMap α) : OrderedMap β where
  entries := m.entries.map fun p => (p.1, f p.2)
  nodup := by
    rw [List.map_map]
    exact m.nodup

/-- Change the values one after the other while a state is passed along. -/
def threadEntries {σ : Type w} (f : α → σ → β × σ) :
    List (String × α) → σ → List (String × β) × σ
  | [], s => ([], s)
  | (key, value) :: rest, s =>
      let head := f value s
      let tail := threadEntries f rest head.2
      ((key, head.1) :: tail.1, tail.2)

/-- Changing values with a state keeps the names. -/
theorem map_fst_threadEntries {σ : Type w} (f : α → σ → β × σ) (entries : List (String × α)) :
    ∀ s : σ, (threadEntries f entries s).1.map Prod.fst = entries.map Prod.fst := by
  induction entries with
  | nil => intro s; rfl
  | cons entry rest ih => intro s; simp [threadEntries, ih]

/-- Change the values in order while a state is passed along. -/
def thread {σ : Type w} (f : α → σ → β × σ) (m : OrderedMap α) (s : σ) : OrderedMap β × σ :=
  (⟨(threadEntries f m.entries s).1, by rw [map_fst_threadEntries]; exact m.nodup⟩,
    (threadEntries f m.entries s).2)

/-- The values in a new order: any rearrangement of the entries is a map again. -/
def reorder (m : OrderedMap α) (entries : List (String × α)) (h : entries.Perm m.entries) :
    OrderedMap α where
  entries := entries
  nodup := (h.map Prod.fst).nodup_iff.mpr m.nodup

/-- The entries sorted stably by an order on pairs of name and value. -/
def sortedBy (m : OrderedMap α) (le : String × α → String × α → Bool) : OrderedMap α :=
  m.reorder (m.entries.mergeSort le) (List.mergeSort_perm m.entries le)

/-- Sorting yields the stable sort of the entries. -/
@[simp] theorem entries_sortedBy (m : OrderedMap α) (le : String × α → String × α → Bool) :
    (m.sortedBy le).entries = m.entries.mergeSort le := rfl

/-- Changing values does not change names. -/
@[simp] theorem keys_mapValues (f : α → β) (m : OrderedMap α) : (m.mapValues f).keys = m.keys := by
  simp [keys, mapValues, Function.comp_def]

end OrderedMap

end FlatModel
