import Mathlib.Data.List.Induction
import Mathlib.Data.List.Nodup
import FlatModel.OrderedMap

/-!
# Contents of ordered maps

* `OrderedMap.find?_insert` — writing changes the value of one name only.
* `OrderedMap.keys_ofList` — of a list of pairs, every name stands where it occurs first.
* `OrderedMap.find?_ofList` — of a list of pairs, the last value of a name counts.
* `OrderedMap.find?_eq_some_iff` — the value of a name is that of its entry.
* `OrderedMap.mapValues_thread` — what a change of values with a state does not touch.
* `OrderedMap.values_sortedBy_mapValues` — changed values sorted by names.
* `OrderedMap.sortedBy_eq_of_find?` — maps that give every name the same value are the same once they
  are sorted by an order that tells their entries apart.
-/

namespace FlatModel.OrderedMap

variable {α β γ σ : Type}

/-! ## Writing -/

/-- Looking up in a list with a first entry. -/
theorem lookup_cons_eq_ite (j k : String) (v : α) (rest : List (String × α)) :
    ((k, v) :: rest).lookup j = if j = k then some v else rest.lookup j := by
  by_cases h : j = k
  · rw [if_pos h, h]
    exact List.lookup_cons_self
  · rw [if_neg h, List.lookup_cons, beq_false_of_ne h]

/-- Looking up a name in entries after writing. -/
theorem lookup_insertEntry (key : String) (value : α) (j : String) :
    ∀ entries : List (String × α), (insertEntry key value entries).lookup j =
      if j = key then some value else entries.lookup j
  | [] => by rw [insertEntry, lookup_cons_eq_ite]
  | (k, v) :: rest => by
      rw [insertEntry]
      split
      · rename_i hk
        subst hk
        rw [lookup_cons_eq_ite, lookup_cons_eq_ite]
        by_cases h : j = k
        · rw [if_pos h, if_pos h]
        · rw [if_neg h, if_neg h, if_neg h]
      · rename_i hk
        rw [lookup_cons_eq_ite, lookup_cons_eq_ite, lookup_insertEntry key value j rest]
        by_cases h : j = k
        · rw [if_pos h, if_pos h, if_neg (h ▸ hk)]
        · rw [if_neg h, if_neg h]

/-- Writing changes the value of one name only. -/
theorem find?_insert (m : OrderedMap α) (key : String) (value : α) (j : String) :
    (m.insert key value).find? j = if j = key then some value else m.find? j :=
  lookup_insertEntry key value j m.entries

/-- Entries after writing: a name that is there keeps its place and the other entries stay as they
are, a new one comes last. -/
theorem insertEntry_eq (key : String) (value : α) {entries : List (String × α)}
    (h : (entries.map Prod.fst).Nodup) : insertEntry key value entries =
      if key ∈ entries.map Prod.fst then entries.map fun p => if p.1 = key then (key, value) else p
      else entries ++ [(key, value)] := by
  induction entries with
  | nil => rfl
  | cons p rest ih =>
      obtain ⟨k, v⟩ := p
      rw [List.map_cons, List.nodup_cons] at h
      by_cases hk : k = key
      · subst hk
        -- no other entry has the name
        have hrest : ∀ p ∈ rest, (if p.1 = k then (k, value) else p) = p :=
          fun p hp => if_neg fun he => h.1 (List.mem_map.mpr ⟨p, hp, he⟩)
        have hmem : k ∈ ((k, v) :: rest).map Prod.fst := List.mem_cons_self
        rw [insertEntry, if_pos rfl, if_pos hmem, List.map_cons, if_pos rfl,
          List.map_congr_left hrest, List.map_id']
      · have hk' : ¬ key = k := Ne.symm hk
        rw [insertEntry, if_neg hk, ih h.2]
        simp only [List.map_cons, List.mem_cons, hk, hk', false_or, if_false]
        split <;> rfl

/-- The entries of a map after writing: a name that is there keeps its place and the other entries
stay as they are, a new one comes last. -/
theorem entries_insert (m : OrderedMap α) (key : String) (value : α) :
    (m.insert key value).entries =
      if key ∈ m.keys then m.entries.map fun p => if p.1 = key then (key, value) else p
      else m.entries ++ [(key, value)] :=
  insertEntry_eq key value m.nodup

/-! ## Lists of pairs -/

/-- The last pair is written last. -/
theorem ofList_concat (pairs : List (String × α)) (p : String × α) :
    ofList (pairs ++ [p]) = (ofList pairs).insert p.1 p.2 := by
  rw [ofList, List.foldl_append]
  rfl

/-- A name at the end of a list counts if it did not occur before. -/
theorem eraseDups_concat (names : List String) (name : String) :
    (names ++ [name]).eraseDups =
      if name ∈ names.eraseDups then names.eraseDups else names.eraseDups ++ [name] := by
  rw [List.eraseDups_append]
  by_cases h : name ∈ names
  · rw [if_pos (List.mem_eraseDups.mpr h)]
    simp [List.removeAll, h]
  · rw [if_neg (mt List.mem_eraseDups.mp h)]
    simp [List.removeAll, h, List.eraseDups_cons]

/-- **The names of a list of pairs**, each where it occurs first. -/
theorem keys_ofList (pairs : List (String × α)) :
    (ofList pairs).keys = (pairs.map Prod.fst).eraseDups := by
  induction pairs using List.reverseRecOn with
  | nil => rfl
  | append_singleton pairs p ih =>
      rw [ofList_concat, keys_insert, ih, List.map_append, List.map_singleton, eraseDups_concat]

/-- **The value of a name in a list of pairs** is the last one. -/
theorem find?_ofList (pairs : List (String × α)) (key : String) :
    (ofList pairs).find? key = pairs.reverse.lookup key := by
  induction pairs using List.reverseRecOn with
  | nil => rfl
  | append_singleton pairs p ih =>
      rw [ofList_concat, find?_insert, ih, List.reverse_append, List.reverse_singleton,
        List.singleton_append, lookup_cons_eq_ite]

/-! ## Entries -/

/-- Looking up in entries without a repeated name. -/
theorem lookup_eq_some_iff_mem {entries : List (String × α)} (h : (entries.map Prod.fst).Nodup)
    {key : String} {a : α} : entries.lookup key = some a ↔ (key, a) ∈ entries := by
  induction entries with
  | nil => simp
  | cons p rest ih =>
      obtain ⟨k, b⟩ := p
      rw [List.map_cons, List.nodup_cons] at h
      rw [lookup_cons_eq_ite, List.mem_cons, Prod.mk.injEq]
      by_cases hk : key = k
      · subst hk
        have hrest : (key, a) ∉ rest := fun hmem => h.1 (List.mem_map.mpr ⟨_, hmem, rfl⟩)
        simp [hrest, eq_comm]
      · rw [if_neg hk, ih h.2]
        simp [hk]

/-- **The value of a name** is that of its entry. -/
theorem find?_eq_some_iff {m : OrderedMap α} {key : String} {a : α} :
    m.find? key = some a ↔ (key, a) ∈ m.entries :=
  lookup_eq_some_iff_mem m.nodup

/-- The names are those that have a value. -/
theorem mem_keys_iff {m : OrderedMap α} {key : String} :
    key ∈ m.keys ↔ ∃ a, m.find? key = some a := by
  simp [keys, find?_eq_some_iff]

/-- The values are those of the names. -/
theorem mem_values_iff {m : OrderedMap α} {a : α} :
    a ∈ m.values ↔ ∃ key, m.find? key = some a := by
  simp [values, find?_eq_some_iff]

/-- A map has the names that occur in it. -/
theorem contains_iff {m : OrderedMap α} {key : String} : m.contains key = true ↔ key ∈ m.keys :=
  List.contains_iff_mem

/-- No entry occurs twice. -/
theorem nodup_entries (m : OrderedMap α) : m.entries.Nodup := m.nodup.of_map

/-- Maps that give every name the same value have the same entries. -/
theorem perm_of_find? {m n : OrderedMap α} (h : ∀ key, m.find? key = n.find? key) :
    m.entries.Perm n.entries := by
  rw [List.perm_ext_iff_of_nodup m.nodup_entries n.nodup_entries]
  intro p
  rw [← find?_eq_some_iff, ← find?_eq_some_iff, h]

/-- Maps of the same entries give every name the same value. -/
theorem find?_eq_of_perm {m n : OrderedMap α} (h : m.entries.Perm n.entries) (key : String) :
    m.find? key = n.find? key := by
  apply Option.ext
  intro a
  rw [find?_eq_some_iff, find?_eq_some_iff]
  exact h.mem_iff

/-! ## Changes of values -/

/-- The values of a map with changed values. -/
theorem find?_mapValues (f : α → β) (m : OrderedMap α) (key : String) :
    (m.mapValues f).find? key = (m.find? key).map f := by
  have hentries : ∀ entries : List (String × α),
      (entries.map fun p => (p.1, f p.2)).lookup key = (entries.lookup key).map f := by
    intro entries
    induction entries with
    | nil => rfl
    | cons p rest ih =>
        rw [List.map_cons, lookup_cons_eq_ite, ih, lookup_cons_eq_ite]
        split <;> rfl
  exact hentries m.entries

/-- Changing values after writing is writing the changed value. -/
theorem mapValues_insert (f : α → β) (m : OrderedMap α) (key : String) (value : α) :
    (m.insert key value).mapValues f = (m.mapValues f).insert key (f value) := by
  have hentries : ∀ entries : List (String × α),
      (insertEntry key value entries).map (fun p => (p.1, f p.2)) =
        insertEntry key (f value) (entries.map fun p => (p.1, f p.2)) := by
    intro entries
    induction entries with
    | nil => rfl
    | cons p rest ih =>
        rw [List.map_cons, insertEntry, insertEntry]
        split
        · rfl
        · rw [List.map_cons, ih]
  exact ext_entries (hentries m.entries)

/-- What a change of the values of entries with a state does not touch. -/
theorem map_threadEntries {f : α → σ → β × σ} {g : α → γ} {h : β → γ}
    (hf : ∀ a s, h (f a s).1 = g a) : ∀ (entries : List (String × α)) (s : σ),
      (threadEntries f entries s).1.map (fun p => (p.1, h p.2)) =
        entries.map fun p => (p.1, g p.2)
  | [], _ => rfl
  | (key, value) :: rest, s => by
      rw [threadEntries, List.map_cons, List.map_cons, hf, map_threadEntries hf rest]

/-- What a change of values with a state does not touch. -/
theorem mapValues_thread {f : α → σ → β × σ} {g : α → γ} {h : β → γ}
    (hf : ∀ a s, h (f a s).1 = g a) (m : OrderedMap α) (s : σ) :
    (m.thread f s).1.mapValues h = m.mapValues g :=
  ext_entries (map_threadEntries hf m.entries s)

/-- A change of the values of entries with a state, where it does not see a change made before. -/
theorem threadEntries_map {f : β → σ → γ × σ} {g : α → σ → γ × σ} {h : α → β}
    (hf : ∀ a s, f (h a) s = g a s) : ∀ (entries : List (String × α)) (s : σ),
      threadEntries f (entries.map fun p => (p.1, h p.2)) s = threadEntries g entries s
  | [], _ => rfl
  | (key, value) :: rest, s => by
      rw [List.map_cons, threadEntries, threadEntries, hf, threadEntries_map hf rest]

/-- A change of values with a state, where it does not see a change made before. -/
theorem thread_mapValues {f : β → σ → γ × σ} {g : α → σ → γ × σ} {h : α → β}
    (hf : ∀ a s, f (h a) s = g a s) (m : OrderedMap α) (s : σ) :
    (m.mapValues h).thread f s = m.thread g s := by
  have hentries := Prod.ext_iff.mp (threadEntries_map hf m.entries s)
  exact Prod.ext (ext_entries hentries.1) hentries.2

/-- Lists made of values, where a change of values with a state does not touch them. -/
theorem flatMap_values_thread {f : α → σ → β × σ} {g : α → List γ} {h : β → List γ}
    (hf : ∀ a s, h (f a s).1 = g a) (m : OrderedMap α) (s : σ) :
    (m.thread f s).1.values.flatMap h = m.values.flatMap g := by
  have hentries := congrArg (List.map Prod.snd) (map_threadEntries hf m.entries s)
  simp only [List.map_map, Function.comp_def] at hentries
  simp only [List.flatMap_def, values, List.map_map, Function.comp_def, thread, hentries]

/-- A state that counts how much the values of entries have of something. -/
theorem threadEntries_snd {f : α → Nat → β × Nat} {g : α → List γ}
    (hf : ∀ a n, (f a n).2 = n + (g a).length) : ∀ (entries : List (String × α)) (n : Nat),
      (threadEntries f entries n).2 = n + ((entries.map Prod.snd).flatMap g).length
  | [], _ => rfl
  | (_, a) :: rest, n => by
      have ih := threadEntries_snd hf rest (f a n).2
      rw [threadEntries, ih, hf, List.map_cons, List.flatMap_cons, List.length_append,
        Nat.add_assoc]

/-! ## Changes of order -/

/-- Changed values of a map sorted by names. -/
theorem values_sortedBy_mapValues (le : String → String → Bool) (f : α → β) (m : OrderedMap α) :
    ((m.mapValues f).sortedBy fun p q => le p.1 q.1).values =
      (m.sortedBy fun p q => le p.1 q.1).values.map f := by
  have hsort : (m.entries.map fun p => (p.1, f p.2)).mergeSort (fun p q => le p.1 q.1) =
      (m.entries.mergeSort fun p q => le p.1 q.1).map fun p => (p.1, f p.2) :=
    (List.map_mergeSort (f := fun p : String × α => (p.1, f p.2)) fun _ _ _ _ => rfl).symm
  rw [values, entries_sortedBy, mapValues, hsort, values, entries_sortedBy, List.map_map,
    List.map_map]
  rfl

section sorted

variable {le : String × α → String × α → Bool}

/-- A sorted map has the same values. -/
theorem mem_values_sortedBy {m : OrderedMap α} {a : α} :
    a ∈ (m.sortedBy le).values ↔ a ∈ m.values :=
  ((List.mergeSort_perm m.entries le).map Prod.snd).mem_iff

/-- A sorted map has the same names. -/
theorem keys_sortedBy_perm (m : OrderedMap α) : (m.sortedBy le).keys.Perm m.keys :=
  (List.mergeSort_perm m.entries le).map Prod.fst

/-- Sorting does not change the value of a name. -/
theorem find?_sortedBy (m : OrderedMap α) (key : String) :
    (m.sortedBy le).find? key = m.find? key :=
  find?_eq_of_perm (List.mergeSort_perm m.entries le) key

/-- Changing values after sorting is sorting after changing values, for orders that do not see the
change. -/
theorem mapValues_sortedBy {le' : String × β → String × β → Bool} {f : α → β}
    (hle : ∀ p q : String × α, le' (p.1, f p.2) (q.1, f q.2) = le p q) (m : OrderedMap α) :
    (m.sortedBy le).mapValues f = (m.mapValues f).sortedBy le' := by
  apply ext_entries
  exact List.map_mergeSort fun p _ q _ => (hle p q).symm

/-- **Maps that give every name the same value are the same once they are sorted** by an order that
tells their entries apart. -/
theorem sortedBy_eq_of_find? {m n : OrderedMap α}
    (htrans : ∀ p q r, le p q = true → le q r = true → le p r = true)
    (htotal : ∀ p q, (le p q || le q p) = true)
    (happart : ∀ p ∈ m.entries, ∀ q ∈ m.entries, le p q = true → le q p = true → p = q)
    (h : ∀ key, m.find? key = n.find? key) : m.sortedBy le = n.sortedBy le := by
  have hperm : (m.entries.mergeSort le).Perm (n.entries.mergeSort le) :=
    ((List.mergeSort_perm m.entries le).trans (perm_of_find? h)).trans
      (List.mergeSort_perm n.entries le).symm
  apply ext_entries
  refine hperm.eq_of_pairwise ?_ (List.pairwise_mergeSort htrans htotal _)
    (List.pairwise_mergeSort htrans htotal _)
  intro p q hp hq
  exact happart p (List.mem_mergeSort.mp hp) q (List.mem_mergeSort.mp (hperm.mem_iff.mpr hq))

end sorted

section names

variable {p q r : String × α}

theorem name_le_trans (hpq : decide (p.1 ≤ q.1) = true) (hqr : decide (q.1 ≤ r.1) = true) :
    decide (p.1 ≤ r.1) = true := by
  simp only [decide_eq_true_eq] at hpq hqr ⊢
  exact String.le_trans hpq hqr

theorem name_le_total : (decide (p.1 ≤ q.1) || decide (q.1 ≤ p.1)) = true := by
  simpa using String.le_total p.1 q.1

theorem name_eq_of_le (hpq : decide (p.1 ≤ q.1) = true) (hqp : decide (q.1 ≤ p.1) = true) :
    p.1 = q.1 := by
  simp only [decide_eq_true_eq] at hpq hqp
  exact String.le_antisymm hpq hqp

end names

/-- Names sorted by themselves increase. -/
theorem pairwise_keys_sortedBy (m : OrderedMap α) :
    (m.sortedBy fun p q => p.1 ≤ q.1).keys.Pairwise (· < ·) := by
  have hle : (m.entries.mergeSort fun p q => p.1 ≤ q.1).Pairwise
      fun p q => decide (p.1 ≤ q.1) = true := by
    apply List.pairwise_mergeSort
    · exact fun _ _ _ => name_le_trans
    · exact fun _ _ => name_le_total
  have hne := (m.sortedBy fun p q => p.1 ≤ q.1).nodup
  rw [entries_sortedBy, List.Nodup, List.pairwise_map] at hne
  rw [keys, entries_sortedBy, List.pairwise_map]
  refine (hle.and hne).imp ?_
  rintro p q ⟨hpq, hpq'⟩
  exact String.not_le.mp fun hqp => hpq' (name_eq_of_le hpq (decide_eq_true hqp))

/-- Maps sorted by names are the same just if they give every name the same value. -/
theorem sortedBy_name_eq_iff {m n : OrderedMap α} :
    (m.sortedBy fun p q => p.1 ≤ q.1) = (n.sortedBy fun p q => p.1 ≤ q.1) ↔
      ∀ key, m.find? key = n.find? key := by
  constructor
  · intro h key
    rw [← find?_sortedBy m, h, find?_sortedBy]
  · apply sortedBy_eq_of_find?
    · exact fun _ _ _ => name_le_trans
    · exact fun _ _ => name_le_total
    · intro p hp q hq hpq hqp
      exact List.inj_on_of_nodup_map m.nodup hp hq (name_eq_of_le hpq hqp)

end FlatModel.OrderedMap
