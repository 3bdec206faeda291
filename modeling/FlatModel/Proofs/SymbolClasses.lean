import Mathlib.Data.List.Perm.Subperm
import FlatModel.Proofs.ModelOfClass

/-!
# Symbols in groups

What sorting and grouping does to the symbols of a class: nothing is lost, nothing is doubled, and
order of declaration decides.

* `SymbolGroups.InOrderOf` — a list is another one in order of declaration, ties as they were.
* `SymbolGroups.inOrderOf_inOrder`, `InOrderOf.filter` — sorting puts in order, also the symbols of
  a kind.
* `SymbolGroups.filter_inOrder_eq` — the symbols of a kind in order, if their places differ.
* `SymbolGroups.distribute` — one pass over the sorted symbols that puts each of them into its
  groups; `group_place`, `algebraics_place` say what a step of it does, `ofList_eq_distribute` what
  all of it does.
* `SymbolGroups.ofList_classifies` — the groups of any list of symbols.
-/

namespace FlatModel

/-- A role is listed once or not at all. -/
theorem Roles.count_toList (roles : Roles) (r : Role) :
    roles.toList.count r = if roles.contains r then 1 else 0 := by
  have hnodup : roles.toList.Nodup := List.Nodup.filter _ (by decide)
  rw [hnodup.count]
  simp

namespace SymbolGroups

variable {symbols : List Symbol} {s : Symbol} {r : Role}

/-! ## Order of declaration -/

/-- `sorted` is `symbols` in order of declaration: a rearrangement with ascending places in which
the symbols that share a place come as they came. -/
structure InOrderOf (symbols sorted : List Symbol) : Prop where
  /-- Nothing is lost or added. -/
  perm : sorted.Perm symbols
  /-- Places ascend. -/
  pairwise : sorted.Pairwise fun s t => s.order ≤ t.order
  /-- The symbols of a place stay as they are. -/
  stable : ∀ place, sorted.filter (·.order == place) = symbols.filter (·.order == place)

/-- Places are compared transitively. -/
theorem order_le_trans (r s t : Symbol) (hrs : decide (r.order ≤ s.order) = true)
    (hst : decide (s.order ≤ t.order) = true) : decide (r.order ≤ t.order) = true :=
  decide_eq_true (UInt64.le_trans (of_decide_eq_true hrs) (of_decide_eq_true hst))

/-- Any two places are compared. -/
theorem order_le_total (s t : Symbol) :
    (decide (s.order ≤ t.order) || decide (t.order ≤ s.order)) = true := by
  simpa using UInt64.le_total s.order t.order

/-- Places ascend after sorting. -/
theorem pairwise_inOrder (symbols : List Symbol) :
    (inOrder symbols).Pairwise fun s t => s.order ≤ t.order :=
  (List.pairwise_mergeSort order_le_trans order_le_total symbols).imp of_decide_eq_true

/-- Symbols that come in order of declaration stay as they are. -/
theorem inOrder_eq_self (h : symbols.Pairwise fun s t => s.order ≤ t.order) :
    inOrder symbols = symbols :=
  List.mergeSort_of_pairwise (h.imp decide_eq_true)

/-- **Sorting puts symbols in order of declaration.** -/
theorem inOrderOf_inOrder (symbols : List Symbol) : InOrderOf symbols (inOrder symbols) where
  perm := List.mergeSort_perm symbols _
  pairwise := pairwise_inOrder symbols
  stable place := by
    -- the symbols of a place are in order already, so the sort keeps them as they are
    have hties : (symbols.filter (·.order == place)).Sublist (inOrder symbols) := by
      refine List.sublist_mergeSort order_le_trans order_le_total ?_ List.filter_sublist
      refine List.pairwise_of_forall_mem_list fun s hs t ht => ?_
      rw [eq_of_beq (List.mem_filter.mp hs).2, eq_of_beq (List.mem_filter.mp ht).2]
      exact decide_eq_true (UInt64.le_refl place)
    have hsub := hties.filter (·.order == place)
    simp only [List.filter_filter, Bool.and_self] at hsub
    have hlength := ((List.mergeSort_perm symbols fun a b => a.order ≤ b.order).filter
      (·.order == place)).length_eq
    exact (hsub.eq_of_length hlength.symm).symm

/-- The symbols of a kind come in the order of all symbols. -/
theorem InOrderOf.filter {sorted : List Symbol} (h : InOrderOf symbols sorted) (p : Symbol → Bool) :
    InOrderOf (symbols.filter p) (sorted.filter p) where
  perm := h.perm.filter p
  pairwise := h.pairwise.sublist List.filter_sublist
  stable place := by
    rw [List.filter_comm, h.stable, List.filter_comm]

/-- The symbols of a kind in order of declaration do not depend on the order they come in, if no two
of them share a place. -/
theorem filter_inOrder_eq {symbols' : List Symbol} {p : Symbol → Bool}
    (hperm : symbols.Perm symbols')
    (happart : ∀ s ∈ symbols, ∀ t ∈ symbols, p s = true → p t = true → s.order = t.order → s = t) :
    (inOrder symbols).filter p = (inOrder symbols').filter p := by
  have hsorted : ∀ l : List Symbol, ((inOrder l).filter p).Pairwise fun s t => s.order ≤ t.order :=
    fun l => (pairwise_inOrder l).sublist List.filter_sublist
  have hfiltered : ((inOrder symbols).filter p).Perm ((inOrder symbols').filter p) :=
    (((List.mergeSort_perm symbols _).trans hperm).trans
      (List.mergeSort_perm symbols' _).symm).filter p
  -- both are sorted and have the same members, so only a tie could tell them apart
  refine hfiltered.eq_of_pairwise ?_ (hsorted _) (hsorted _)
  intro s t hs ht hst hts
  obtain ⟨hs, hps⟩ := List.mem_filter.mp hs
  obtain ⟨ht, hpt⟩ := List.mem_filter.mp (hfiltered.mem_iff.mpr ht)
  exact happart s (mem_inOrder.mp hs) t (mem_inOrder.mp ht) hps hpt (UInt64.le_antisymm hst hts)

/-- Symbols in different places come in one order of declaration. -/
theorem inOrder_eq_of_perm {symbols' : List Symbol} (hplaces : (symbols.map Symbol.order).Nodup)
    (hperm : symbols.Perm symbols') : inOrder symbols = inOrder symbols' := by
  have hall : ∀ l : List Symbol, l.filter (fun _ => true) = l :=
    fun l => List.filter_eq_self.mpr fun _ _ => rfl
  rw [← hall (inOrder symbols), ← hall (inOrder symbols')]
  exact filter_inOrder_eq hperm fun s hs t ht _ _ => List.inj_on_of_nodup_map hplaces hs ht

/-! ## The groups -/

/-- The group of a role. -/
def group (g : SymbolGroups) : Role → List Symbol
  | .state => g.states
  | .input => g.inputs
  | .output => g.outputs
  | .constant => g.constants
  | .parameter => g.parameters

/-- All six groups. -/
def all (g : SymbolGroups) : List (List Symbol) := Role.all.map g.group ++ [g.algebraics]

/-- The group of a role is one of the groups. -/
theorem group_mem_all (g : SymbolGroups) (r : Role) : g.group r ∈ g.all :=
  List.mem_append_left _ (List.mem_map_of_mem (by cases r <;> decide))

/-- The algebraic variables are one of the groups. -/
theorem algebraics_mem_all (g : SymbolGroups) : g.algebraics ∈ g.all :=
  List.mem_append_right _ List.mem_cons_self

/-- Groups are told apart by their members. -/
theorem ext_group {g h : SymbolGroups} (hgroup : ∀ r, g.group r = h.group r)
    (halgebraics : g.algebraics = h.algebraics) : g = h := by
  obtain ⟨states, inputs, outputs, constants, parameters, algebraics⟩ := g
  obtain rfl : states = h.states := hgroup .state
  obtain rfl : inputs = h.inputs := hgroup .input
  obtain rfl : outputs = h.outputs := hgroup .output
  obtain rfl : constants = h.constants := hgroup .constant
  obtain rfl : parameters = h.parameters := hgroup .parameter
  obtain rfl : algebraics = h.algebraics := halgebraics
  rfl

/-- The group of a role holds the symbols that play it, in order. -/
theorem group_ofList (symbols : List Symbol) (r : Role) :
    (ofList symbols).group r = (inOrder symbols).filter fun s => s.is r := by
  cases r <;> rfl

/-! ## One pass over the symbols -/

/-- A symbol at the end of the group of a role. -/
def push (s : Symbol) (g : SymbolGroups) : Role → SymbolGroups
  | .state => { g with states := g.states ++ [s] }
  | .input => { g with inputs := g.inputs ++ [s] }
  | .output => { g with outputs := g.outputs ++ [s] }
  | .constant => { g with constants := g.constants ++ [s] }
  | .parameter => { g with parameters := g.parameters ++ [s] }

/-- A symbol at the end of the groups of all its roles, or of the algebraic variables if it has
none. -/
def place (g : SymbolGroups) (s : Symbol) : SymbolGroups :=
  if s.roles.isEmpty then { g with algebraics := g.algebraics ++ [s] }
  else s.roles.toList.foldl (push s) g

/-- The outputs that are no states at the end of the algebraic variables. -/
def addOutputs (g : SymbolGroups) : SymbolGroups :=
  { g with algebraics := g.algebraics ++ g.outputs.filter fun s => !s.is .state }

/-- The groups that one pass over the symbols in order fills, the outputs added at the end. -/
def distribute (symbols : List Symbol) : SymbolGroups :=
  ((inOrder symbols).foldl place ⟨[], [], [], [], [], []⟩).addOutputs

/-- Only the group of the role gets the symbol. -/
theorem group_push (s : Symbol) (g : SymbolGroups) (q r : Role) :
    (push s g q).group r = g.group r ++ if q = r then [s] else [] := by
  cases q <;> cases r <;> simp [push, group]

/-- Each group gets the symbol as often as its role is listed. -/
theorem group_foldl_push (s : Symbol) (r : Role) : ∀ (roles : List Role) (g : SymbolGroups),
    (roles.foldl (push s) g).group r = g.group r ++ List.replicate (roles.count r) s
  | [], g => by simp
  | q :: rest, g => by
      rw [List.foldl_cons, group_foldl_push s r rest, group_push, List.append_assoc]
      by_cases hq : q = r
      · simp [hq, List.replicate_succ]
      · simp [hq]

/-- Roles do not change the algebraic variables. -/
theorem algebraics_foldl_push (s : Symbol) : ∀ (roles : List Role) (g : SymbolGroups),
    (roles.foldl (push s) g).algebraics = g.algebraics
  | [], _ => rfl
  | q :: rest, g => by
      rw [List.foldl_cons, algebraics_foldl_push s rest]
      cases q <;> rfl

/-- **A step of the pass** puts the symbol at the end of the group of each role it plays. -/
theorem group_place (g : SymbolGroups) (s : Symbol) (r : Role) :
    (g.place s).group r = g.group r ++ if s.is r then [s] else [] := by
  unfold place
  split_ifs with hempty hr hr
  · rw [Symbol.isEmpty_roles hr] at hempty
    cases hempty
  · rw [List.append_nil]
    cases r <;> rfl
  · have hr : s.roles.contains r = true := hr
    rw [group_foldl_push, Roles.count_toList, if_pos hr]
    rfl
  · have hr : ¬ s.roles.contains r = true := hr
    rw [group_foldl_push, Roles.count_toList, if_neg hr]
    rfl

/-- **A step of the pass** puts a symbol without roles at the end of the algebraic variables. -/
theorem algebraics_place (g : SymbolGroups) (s : Symbol) :
    (g.place s).algebraics = g.algebraics ++ if s.roles.isEmpty then [s] else [] := by
  unfold place
  split_ifs
  · rfl
  · rw [algebraics_foldl_push, List.append_nil]

/-- The pass puts the symbols that play a role at the end of its group. -/
theorem group_foldl_place (r : Role) : ∀ (symbols : List Symbol) (g : SymbolGroups),
    (symbols.foldl place g).group r = g.group r ++ symbols.filter fun s => s.is r
  | [], g => by simp
  | s :: rest, g => by
      rw [List.foldl_cons, group_foldl_place r rest, group_place, List.append_assoc,
        List.filter_cons]
      split_ifs <;> rfl

/-- The pass puts the symbols without roles at the end of the algebraic variables. -/
theorem algebraics_foldl_place : ∀ (symbols : List Symbol) (g : SymbolGroups),
    (symbols.foldl place g).algebraics = g.algebraics ++ symbols.filter fun s => s.roles.isEmpty
  | [], g => by simp
  | s :: rest, g => by
      rw [List.foldl_cons, algebraics_foldl_place rest, algebraics_place, List.append_assoc,
        List.filter_cons]
      split_ifs <;> rfl

/-- **The groups are those that one pass fills.** -/
theorem ofList_eq_distribute (symbols : List Symbol) : ofList symbols = distribute symbols := by
  have hgroup : ∀ r, (distribute symbols).group r = (inOrder symbols).filter fun s => s.is r := by
    intro r
    have hpass := group_foldl_place r (inOrder symbols) ⟨[], [], [], [], [], []⟩
    cases r <;> exact hpass
  refine ext_group (fun r => (group_ofList symbols r).trans (hgroup r).symm) ?_
  have hplain := algebraics_foldl_place (inOrder symbols) ⟨[], [], [], [], [], []⟩
  exact (congrArg₂ (· ++ ·) hplain (congrArg (List.filter _) (hgroup .output))).symm

/-! ## What becomes of the symbols -/

/-- No symbol is an algebraic variable more often than it is a symbol: the outputs that follow the
symbols without roles are among those with a role. -/
theorem subperm_algebraics (symbols : List Symbol) :
    (ofList symbols).algebraics.Subperm symbols := by
  have houtputs : (((inOrder symbols).filter fun s => s.is .output).filter
      fun s => !s.is .state).Sublist ((inOrder symbols).filter fun s => !s.roles.isEmpty) := by
    rw [List.filter_filter]
    refine List.monotone_filter_right _ fun s hs => ?_
    rw [Bool.and_eq_true] at hs
    rw [Symbol.isEmpty_roles hs.2]
    rfl
  have hparts := List.filter_append_perm (fun s : Symbol => s.roles.isEmpty) (inOrder symbols)
  exact ((houtputs.append_left _).subperm.trans hparts.subperm).trans
    (List.mergeSort_perm symbols _).subperm

/-- No symbol is in the group of a role more often than it is a symbol. -/
theorem subperm_group (symbols : List Symbol) (r : Role) :
    ((ofList symbols).group r).Subperm symbols := by
  rw [group_ofList]
  exact List.filter_sublist.subperm.trans (List.mergeSort_perm symbols _).subperm

/-- No symbol is in a group more often than it is a symbol. -/
theorem subperm_of_mem_all {members : List Symbol} (h : members ∈ (ofList symbols).all) :
    members.Subperm symbols := by
  rcases List.mem_append.mp h with h | h
  · obtain ⟨r, _, rfl⟩ := List.mem_map.mp h
    exact subperm_group symbols r
  · rw [List.mem_singleton.mp h]
    exact subperm_algebraics symbols

/-- Every symbol is in one of the groups. -/
theorem exists_mem_all (h : s ∈ symbols) : ∃ members ∈ (ofList symbols).all, s ∈ members := by
  rcases mem_group h with h | h | h | h | h
  · exact ⟨_, group_mem_all _ .state, h⟩
  · exact ⟨_, algebraics_mem_all _, h⟩
  · exact ⟨_, group_mem_all _ .constant, h⟩
  · exact ⟨_, group_mem_all _ .parameter, h⟩
  · exact ⟨_, group_mem_all _ .input, h⟩

/-- No state is an algebraic variable. -/
theorem disjoint_states_algebraics (symbols : List Symbol) :
    List.Disjoint (ofList symbols).states (ofList symbols).algebraics := by
  intro s hstate halgebraic
  have hstate := (mem_playing.mp hstate).2
  rcases (mem_algebraics.mp halgebraic).2 with hempty | ⟨_, hnot⟩
  · rw [Symbol.isEmpty_roles hstate] at hempty
    cases hempty
  · rw [hstate] at hnot
    cases hnot

/-- **Nothing is lost and nothing is doubled.**  The groups of symbols are those that one pass
fills.  The group of a role holds the symbols that play it in order of declaration, and the
algebraic variables are the symbols without roles in that order, then the outputs that are no
states.  So each symbol is in a group, none is in a group more often than among the symbols, no
state is an algebraic variable and every output is one or the other.  Symbols in different places
have the same groups in whatever order they come. -/
theorem ofList_classifies (symbols : List Symbol) :
    ofList symbols = distribute symbols ∧
    (∀ r, InOrderOf (symbols.filter fun s => s.is r) ((ofList symbols).group r)) ∧
    (∃ plain outputs, (ofList symbols).algebraics = plain ++ outputs ∧
      InOrderOf (symbols.filter fun s => s.roles.isEmpty) plain ∧
      InOrderOf (symbols.filter fun s => s.is .output && !s.is .state) outputs) ∧
    (∀ s ∈ symbols, ∃ members ∈ (ofList symbols).all, s ∈ members) ∧
    (∀ members ∈ (ofList symbols).all, members.Subperm symbols) ∧
    List.Disjoint (ofList symbols).states (ofList symbols).algebraics ∧
    (∀ s ∈ symbols, s.is .output = true →
      s ∈ (ofList symbols).states ∨ s ∈ (ofList symbols).algebraics) ∧
    ((symbols.map Symbol.order).Nodup → ∀ symbols', symbols.Perm symbols' →
      ofList symbols' = ofList symbols) := by
  have hsorted := inOrderOf_inOrder symbols
  refine ⟨ofList_eq_distribute symbols, fun r => ?_, ⟨_, _, rfl, hsorted.filter _, ?_⟩,
    fun _ => exists_mem_all, fun _ => subperm_of_mem_all, disjoint_states_algebraics symbols, ?_,
    ?_⟩
  · rw [group_ofList]
    exact hsorted.filter _
  · rw [List.filter_filter]
    simp only [Bool.and_comm]
    exact hsorted.filter _
  · exact fun s hs houtput => mem_of_mem_outputs (mem_playing.mpr ⟨hs, houtput⟩)
  · intro hplaces symbols' hperm
    rw [ofList, ofList, inOrder_eq_of_perm hplaces hperm]

/-- A state that is an output, a constant parameter, an output and a symbol without a role. -/
def mixedRoles : List Symbol :=
  [{ name := "x", order := 5, roles := .ofList [.state, .output] },
    { name := "k", order := 3, roles := .ofList [.parameter, .constant] },
    { name := "y", order := 1, roles := .ofList [.output] },
    { name := "a", order := 0 }]

/-- They have the same groups forwards and backwards. -/
theorem ofList_classifies_reverse :
    (mixedRoles.map Symbol.order).Nodup ∧ mixedRoles.Perm mixedRoles.reverse ∧
      ofList mixedRoles.reverse = ofList mixedRoles := by
  have hplaces : (mixedRoles.map Symbol.order).Nodup := by decide
  have hperm : mixedRoles.Perm mixedRoles.reverse := (List.reverse_perm _).symm
  obtain ⟨-, -, -, -, -, -, -, hsame⟩ := ofList_classifies mixedRoles
  exact ⟨hplaces, hperm, hsame hplaces _ hperm⟩

end SymbolGroups

end FlatModel
