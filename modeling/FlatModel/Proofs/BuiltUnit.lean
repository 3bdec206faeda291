import FlatModel.Proofs.AssemblyRun
import FlatModel.Proofs.VisitedNodes

/-!
# What a build returns

A build goes through a table of fragments, numbers and a scope.  What it returns is what direct
recursion over each class returns, and the table holds the texts of the nodes and nothing else.

* `FragmentTable.count_eq` — how many fragments a table has of which every fragment is known.
* `SourceUnit.countP_slots` — every node of a class has a text but the class itself.
* `build_translates` — the documents and the table of a unit that is built.
-/

namespace FlatModel

open Emission

/-! ## Counting slots -/

mutual

/-- Every node of an expression has a text. -/
theorem Expression.isSome_of_mem_slots : ∀ (e : Expression), ∀ x ∈ e.slots, x.isSome = true
  | .literal _ _ => by simp [slots]
  | .reference _ _ => by simp [slots]
  | .operation _ _ operands => by
      have ih := Expression.isSome_of_mem_slotsAll operands
      intro x hx
      rcases List.mem_append.mp hx with hx | hx
      · exact ih x hx
      · rw [List.mem_singleton.mp hx]
        rfl

/-- Every node of expressions has a text. -/
theorem Expression.isSome_of_mem_slotsAll : ∀ (es : List Expression), ∀ x ∈ slotsAll es,
    x.isSome = true
  | [] => by simp [slotsAll]
  | e :: rest => by
      have hhead := Expression.isSome_of_mem_slots e
      have htail := Expression.isSome_of_mem_slotsAll rest
      intro x hx
      rcases List.mem_append.mp hx with hx | hx
      · exact hhead x hx
      · exact htail x hx

end

/-- Every node of a symbol has a text. -/
theorem Symbol.isSome_of_mem_slots (s : Symbol) : ∀ x ∈ s.slots, x.isSome = true := by
  have hexpressions := Expression.isSome_of_mem_slotsAll s.expressions
  intro x hx
  rcases List.mem_append.mp hx with hx | hx
  · exact hexpressions x hx
  · rw [List.mem_singleton.mp hx]
    rfl

/-- Every node of an equation has a text. -/
theorem Equation.isSome_of_mem_slots (e : Equation) : ∀ x ∈ e.slots, x.isSome = true := by
  have hsides := Expression.isSome_of_mem_slotsAll [e.left, e.right]
  intro x hx
  rcases List.mem_append.mp hx with hx | hx
  · exact hsides x hx
  · rw [List.mem_singleton.mp hx]
    rfl

/-- Every node of a class has a text but the class itself. -/
theorem ClassDef.countP_slots (c : ClassDef) :
    c.slots.countP Option.isSome + 1 = c.slots.length := by
  have hmembers : (c.symbols.values.flatMap Symbol.slots ++
      c.equations.flatMap Equation.slots).countP Option.isSome =
      (c.symbols.values.flatMap Symbol.slots ++ c.equations.flatMap Equation.slots).length := by
    rw [List.countP_eq_length]
    intro x hx
    rw [List.mem_append, List.mem_flatMap, List.mem_flatMap] at hx
    rcases hx with ⟨s, -, hx⟩ | ⟨e, -, hx⟩
    · exact s.isSome_of_mem_slots x hx
    · exact e.isSome_of_mem_slots x hx
  rw [slots, List.countP_append, hmembers]
  simp [Nat.add_assoc]

/-- **Every node of the classes of a unit has a text but the classes themselves.** -/
theorem SourceUnit.countP_slots (u : SourceUnit) :
    u.slots.countP Option.isSome + u.classes.keys.length = u.slots.length := by
  have hclasses : ∀ entries : List (String × ClassDef),
      ((entries.map Prod.snd).flatMap ClassDef.slots).countP Option.isSome + entries.length =
        ((entries.map Prod.snd).flatMap ClassDef.slots).length := by
    intro entries
    induction entries with
    | nil => rfl
    | cons p rest ih =>
        have hhead := p.2.countP_slots
        rw [List.map_cons, List.flatMap_cons, List.countP_append, List.length_append,
          List.length_cons]
        omega
  have hall := hclasses u.classes.entries
  rwa [← List.length_map (f := Prod.fst)] at hall

namespace Emission

/-- Slots that show the same texts have equally many of them. -/
theorem countP_isSome_eq_of_join : ∀ {s t : List (Option String)},
    (∀ j : Nat, (s[j]?).join = (t[j]?).join) → s.countP Option.isSome = t.countP Option.isSome
  | [], t, h => by
      symm
      rw [List.countP_nil, List.countP_eq_zero]
      intro x hx
      obtain ⟨j, hj⟩ := List.mem_iff_getElem?.mp hx
      have hx' := h j
      rw [hj, List.getElem?_nil, Option.join_none, Option.join_some] at hx'
      rw [← hx']
      nofun
  | x :: s, [], h => by
      have hhead := h 0
      have htail := countP_isSome_eq_of_join (s := s) (t := []) fun j => h (j + 1)
      rw [List.getElem?_cons_zero, List.getElem?_nil, Option.join_some, Option.join_none] at hhead
      rw [List.countP_cons, htail, hhead]
      rfl
  | x :: s, y :: t, h => by
      have hhead : x = y := h 0
      have htail := countP_isSome_eq_of_join (s := s) (t := t) fun j => h (j + 1)
      rw [List.countP_cons, List.countP_cons, htail, hhead]

/-- **The number of fragments of a table** whose fragments are those of slots. -/
theorem FragmentTable.count_eq {t : FragmentTable} {slots : List (Option String)}
    (h : ∀ j, t.get? j = (slots[j]?).join) : t.count = slots.countP Option.isSome := by
  rw [count, ← Array.countP_toList]
  apply countP_isSome_eq_of_join
  intro j
  rw [Array.getElem?_toList]
  exact h j

/-! ## The result of a build -/

/-- A build that succeeds returns the direct documents and a table with the slots of the unit. -/
theorem build_eq_ok {u : SourceUnit} {doc : UnitDoc} {table : FragmentTable}
    (h : build u = .ok (doc, table)) :
    doc = ⟨u.numbered.digest, ModelDoc.directAll u⟩ ∧ ∀ j, table.get? j = (u.slots[j]?).join := by
  obtain ⟨table', htable, hbuild⟩ := build_eq u
  rw [h] at hbuild
  rcases hfaults : u.faults with _ | ⟨fault, rest⟩
  · rw [hfaults] at hbuild
    cases hbuild
    exact ⟨rfl, htable⟩
  · rw [hfaults] at hbuild
    cases hbuild

/-- The documents of a unit by the names of its classes. -/
theorem forall₂_directAll (u : SourceUnit) :
    List.Forall₂ (fun key d => ∃ c, u.classes.find? key = some c ∧ d = ModelDoc.direct c)
      (u.classes.sortedBy fun p q => p.1 ≤ q.1).keys (ModelDoc.directAll u) := by
  rw [OrderedMap.keys, ModelDoc.directAll, OrderedMap.values, List.map_map,
    List.forall₂_map_left_iff, List.forall₂_map_right_iff, List.forall₂_same]
  intro p hp
  refine ⟨p.2, ?_, rfl⟩
  rw [← OrderedMap.find?_sortedBy, OrderedMap.find?_eq_some_iff]
  exact hp

/-- **A build translates each class by itself.**  The documents are those of the classes in
ascending order of their names, each by recursion over its class alone; the table has the text of
every node of the numbered unit at its number and nothing for classes and the unit. -/
theorem build_translates {u : SourceUnit} {doc : UnitDoc} {table : FragmentTable}
    (h : build u = .ok (doc, table)) :
    (∃ keys : List String, keys.Perm u.classes.keys ∧ keys.Pairwise (· < ·) ∧
      List.Forall₂ (fun key d => ∃ c, u.classes.find? key = some c ∧ d = ModelDoc.direct c)
        keys doc.models) ∧
    (∀ node ∈ u.numbered.nodes, table.get? node.id = node.translation?) ∧
    (∀ id, (table.get? id).isSome → ∃ node ∈ u.numbered.nodes, node.id = id) ∧
    table.count + u.classes.keys.length + 1 = u.numbered.nodeCount := by
  obtain ⟨rfl, htable⟩ := build_eq_ok h
  have hcount : u.numbered.nodeCount = u.slots.length + 1 := by
    rw [SourceUnit.nodeCount, SourceUnit.id_numbered]
  refine ⟨?_, ?_, ?_, ?_⟩
  · exact ⟨_, u.classes.keys_sortedBy_perm, u.classes.pairwise_keys_sortedBy, forall₂_directAll u⟩
  · intro node hnode
    rw [htable, SourceUnit.translation?_of_mem hnode]
  · intro id hid
    apply SourceUnit.exists_mem_nodes
    by_contra hge
    rw [htable, List.getElem?_eq_none (by omega)] at hid
    cases hid
  · rw [FragmentTable.count_eq htable, u.countP_slots, hcount]

/-! ### Classes out of order -/

/-- A class with a state that has a start value, and its equation; every node has the number five. -/
def tank : ClassDef where
  name := "Tank"
  symbols := .ofList [("h.x", ⟨"h.x", 0, .ofList [.state], none, some (.literal 5 (.integer 1)), 5⟩)]
  equations := [⟨.operation 5 "der" [.reference 5 "h.x"], .reference 5 "h.x", 5⟩]
  id := 5

/-- The class before a class without symbols whose name comes first. -/
def unsorted : SourceUnit := ⟨.ofList [("Tank", tank), ("Pump", .new "Pump")], 5⟩

/-- The build of the two classes: six fragments for nine nodes. -/
theorem build_translates_unsorted :
    ∃ doc table, build unsorted = .ok (doc, table) ∧
      doc.models = [ModelDoc.direct (.new "Pump"), ModelDoc.direct tank] ∧
      table.get? 5 = some "(h__x).diff(self.t) - (h__x)" ∧ table.get? 6 = none ∧
      table.count = 6 := by
  have hfaults : unsorted.faults = [] := by decide +kernel
  obtain ⟨table, -, hbuild⟩ := build_eq unsorted
  rw [hfaults] at hbuild
  obtain ⟨⟨keys, hperm, hsorted, hmodels⟩, htexts, -, hcount⟩ := build_translates hbuild
  have hkeys : keys = ["Pump", "Tank"] := by
    have hperm' : keys.Perm ["Pump", "Tank"] := hperm.trans (by decide)
    refine hperm'.eq_of_pairwise ?_ hsorted (by decide)
    intro a b _ _ hab hba
    exact absurd hba (String.lt_asymm hab)
  rw [hkeys] at hmodels
  obtain ⟨_, _, ⟨first, hfirst, rfl⟩, hmodels, hdocs⟩ := List.forall₂_cons_left_iff.mp hmodels
  obtain ⟨_, _, ⟨second, hsecond, rfl⟩, hnil, rfl⟩ := List.forall₂_cons_left_iff.mp hmodels
  have hpump : unsorted.classes.find? "Pump" = some (.new "Pump") := rfl
  have htank : unsorted.classes.find? "Tank" = some tank := rfl
  cases hpump.symm.trans hfirst
  cases htank.symm.trans hsecond
  cases hnil
  have hnode : ∀ (i : Nat) (node : Node), unsorted.numbered.nodes[i]? = some node →
      table.get? node.id = node.translation? :=
    fun _ node hi => htexts node (List.mem_of_getElem? hi)
  refine ⟨_, table, hbuild, hdocs, ?_, hnode 6 (.classDef (tank.number 0).1) rfl, ?_⟩
  · have htext := hnode 5 (.equation ⟨.operation 3 "der" [.reference 2 "h.x"],
      .reference 4 "h.x", 5⟩) rfl
    refine htext.trans (congrArg some ?_)
    decide +kernel
  · have hnodes : unsorted.numbered.nodeCount = 9 := rfl
    have hclasses : unsorted.classes.keys.length = 2 := rfl
    omega

end Emission

end FlatModel
