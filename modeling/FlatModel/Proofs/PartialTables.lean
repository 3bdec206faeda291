import FlatModel.Proofs.DirectDocument
import FlatModel.Proofs.SymbolClasses

/-!
# Documents from a partial table

A document is built from a table all at once or not at all, whatever the table has fragments of and
whatever the numbers of the nodes are.

* `FragmentTable.Demands` — a computation that asks a table for the fragments of nodes, one after the
  other, and fails at the first one that has none.  Computations in sequence demand what their parts
  do (`Demands.bind`, `Demands.mapM`).
* `VectorDoc.needs`, `ModelDoc.needs` — the nodes whose fragments a vector and a class need, in the
  order in which they are asked for; `ModelDoc.mem_needs` says which these are.
* `VectorDoc.Split` — members dealt out to default values and to names without a default.
* `VectorDoc.ReadFrom`, `ModelDoc.ReadFrom` — what a document takes from the table it is built from.
* `ModelDoc.build_all_or_nothing` — when a class has a document, what it holds, and the error if it
  has none.
-/

namespace FlatModel.Emission

/-! ## What is demanded of a table -/

namespace FragmentTable

variable {α β ι : Type} {t : FragmentTable} {ids ids' : List Nat} {x : Except EmissionError α}

/-- The first of the nodes that has no fragment. -/
def firstMissing? (t : FragmentTable) (ids : List Nat) : Option Nat :=
  ids.find? fun id => (t.get? id).isNone

/-- Every node has a fragment if no first one lacks it. -/
theorem firstMissing?_eq_none_iff :
    t.firstMissing? ids = none ↔ ∀ id ∈ ids, (t.get? id).isSome = true := by
  simp [firstMissing?, Option.isSome_iff_ne_none]

/-- The computation asks for the fragments of the nodes in this order: it succeeds if each of them
has one and fails at the first one that has none. -/
structure Demands (t : FragmentTable) (ids : List Nat) (x : Except EmissionError α) : Prop where
  /-- If no fragment is missing, there is a result. -/
  succeeds : t.firstMissing? ids = none → ∃ a, x = .ok a
  /-- If one is missing, the first missing one is the error. -/
  fails : ∀ id, t.firstMissing? ids = some id → x = .error (.missingFragment id)

/-- There is a result just if no fragment is missing. -/
theorem Demands.exists_ok_iff (hx : t.Demands ids x) :
    (∃ a, x = .ok a) ↔ t.firstMissing? ids = none := by
  refine ⟨fun ⟨a, ha⟩ => ?_, hx.succeeds⟩
  rcases hfirst : t.firstMissing? ids with _ | id
  · rfl
  · cases ha.symm.trans (hx.fails id hfirst)

/-- There is an error just if a fragment is missing, and it is the first one that is. -/
theorem Demands.eq_error_iff (hx : t.Demands ids x) {err : EmissionError} :
    x = .error err ↔ ∃ id, t.firstMissing? ids = some id ∧ err = .missingFragment id := by
  constructor
  · intro herr
    rcases hfirst : t.firstMissing? ids with _ | id
    · obtain ⟨a, ha⟩ := hx.succeeds hfirst
      cases ha.symm.trans herr
    · cases herr.symm.trans (hx.fails id hfirst)
      exact ⟨id, rfl, rfl⟩
  · rintro ⟨id, hfirst, rfl⟩
    exact hx.fails id hfirst

/-- A result that is there demands nothing. -/
theorem Demands.ok (a : α) : t.Demands [] (.ok a) := ⟨fun _ => ⟨a, rfl⟩, nofun⟩

/-- What goes on with a result demands more after that. -/
theorem Demands.bind {f : α → Except EmissionError β} (hx : t.Demands ids x)
    (hf : ∀ a, x = .ok a → t.Demands ids' (f a)) : t.Demands (ids ++ ids') (x.bind f) := by
  have happend : t.firstMissing? (ids ++ ids') =
      (t.firstMissing? ids).or (t.firstMissing? ids') := List.find?_append
  constructor
  · intro h
    rw [happend, Option.or_eq_none_iff] at h
    obtain ⟨a, rfl⟩ := hx.succeeds h.1
    exact (hf a rfl).succeeds h.2
  · intro id h
    rw [happend, Option.or_eq_some_iff] at h
    rcases h with h | ⟨hnone, h⟩
    · rw [hx.fails id h]
      rfl
    · obtain ⟨a, rfl⟩ := hx.succeeds hnone
      exact (hf a rfl).fails id h

/-- What only changes the result demands nothing more. -/
theorem Demands.map (hx : t.Demands ids x) (f : α → β) :
    t.Demands ids (x.bind fun a => .ok (f a)) := by
  have h := hx.bind fun a _ => Demands.ok (f a)
  rwa [List.append_nil] at h

/-- A computation for each item of a list demands what it does at each item, in order. -/
theorem Demands.mapM {needs : ι → List Nat} {f : ι → Except EmissionError β} : ∀ {items : List ι},
    (∀ i ∈ items, t.Demands (needs i) (f i)) → t.Demands (items.flatMap needs) (items.mapM f)
  | [], _ => .ok []
  | i :: rest, h => by
      obtain ⟨hi, hrest⟩ := List.forall_mem_cons.mp h
      rw [List.mapM_cons, List.flatMap_cons]
      exact hi.bind fun b _ => (Demands.mapM hrest).map (b :: ·)

/-- Reading a fragment demands it. -/
theorem demands_fragment (t : FragmentTable) (id : Nat) : t.Demands [id] (t.fragment id) := by
  unfold fragment
  rcases h : t.get? id with _ | text
  · constructor <;> simp [firstMissing?, h]
  · constructor <;> simp [firstMissing?, h]

/-- Reading the fragments of nodes demands them in order. -/
theorem demands_mapM_fragment (t : FragmentTable) (id : ι → Nat) (items : List ι) :
    t.Demands (items.map id) (items.mapM fun i => t.fragment (id i)) := by
  rw [List.map_eq_flatMap]
  exact .mapM fun i _ => t.demands_fragment (id i)

end FragmentTable

/-! ## What a document needs -/

variable {t : FragmentTable}

/-- The nodes whose fragments a vector needs: its members before their defaults. -/
def VectorDoc.needs (k : VectorKind) (symbols : List Symbol) : List Nat :=
  symbols.map Symbol.id ++
    if k.hasDefaults then (symbols.filterMap Symbol.default?).map Expression.id else []

/-- The nodes whose fragments the document of a class needs: those of its vectors in the order in
which these are written, then the equations. -/
def ModelDoc.needs (c : ClassDef) : List Nat :=
  (VectorKind.all.flatMap fun k => VectorDoc.needs k (k.select c.groups)) ++
    c.equations.map Equation.id

/-- Collecting default values demands them in the order of the symbols. -/
theorem VectorDoc.demands_collectDefaults : ∀ pairs : List (Symbol × String),
    t.Demands ((pairs.filterMap fun p => p.1.default?).map Expression.id) (collectDefaults t pairs)
  | [] => .ok _
  | (s, key) :: rest => by
      have ih := demands_collectDefaults rest
      rw [collectDefaults, List.filterMap_cons]
      rcases hs : s.default? with _ | e
      · exact ih.map _
      · exact (t.demands_fragment e.id).bind fun _ _ => ih.map _

/-- **A vector demands what it needs.** -/
theorem VectorDoc.demands_build (k : VectorKind) (symbols : List Symbol) :
    t.Demands (needs k symbols) (build k symbols t) := by
  refine (t.demands_mapM_fragment Symbol.id symbols).bind fun members hmembers => ?_
  rcases hk : k.hasDefaults with _ | _
  · exact .ok _
  · -- when the defaults are asked for, the members are there, one for each symbol
    have hlength : symbols.length = members.length := (mapM_eq_ok.mp hmembers).length_eq
    have hdefaults : (symbols.zip members).filterMap (fun p => p.1.default?) =
        symbols.filterMap Symbol.default? := by
      conv_rhs => rw [← List.map_fst_zip (Nat.le_of_eq hlength), List.filterMap_map]
      rfl
    have h := demands_collectDefaults (t := t) (symbols.zip members)
    rw [hdefaults] at h
    exact h.map _

/-- **A document demands what it needs.** -/
theorem ModelDoc.demands_build (c : ClassDef) (t : FragmentTable) :
    t.Demands (needs c) (build c t) := by
  have hvectors : t.Demands (VectorKind.all.flatMap fun k => VectorDoc.needs k (k.select c.groups))
      (VectorKind.all.mapM fun k => VectorDoc.build k (k.select c.groups) t) :=
    .mapM fun k _ => VectorDoc.demands_build k (k.select c.groups)
  have hequations := t.demands_mapM_fragment Equation.id c.equations
  exact hvectors.bind fun vectors _ => hequations.map fun equations =>
    ModelDoc.mk c.name vectors equations (vectors.flatMap VectorDoc.missing)

/-! ### Which nodes these are -/

section members

variable {symbols : List Symbol} {s : Symbol}

/-- A vector with defaults has a symbol just if it is a state, a constant, a parameter or an
input. -/
theorem VectorKind.exists_hasDefaults_iff :
    (∃ k : VectorKind, k.hasDefaults = true ∧ s ∈ k.select (.ofList symbols)) ↔
      s ∈ symbols ∧ ∃ r ∈ [Role.state, .constant, .parameter, .input], s.is r = true := by
  constructor
  · rintro ⟨k, hk, hs⟩
    cases k with
    | algebraics | outputs => cases hk
    | states | constants | parameters | inputs =>
        obtain ⟨hs, hr⟩ := SymbolGroups.mem_playing.mp hs
        exact ⟨hs, _, by decide, hr⟩
  · rintro ⟨hs, r, hmem, hr⟩
    have hplays := SymbolGroups.mem_playing.mpr ⟨hs, hr⟩
    cases r with
    | state => exact ⟨.states, rfl, hplays⟩
    | constant => exact ⟨.constants, rfl, hplays⟩
    | parameter => exact ⟨.parameters, rfl, hplays⟩
    | input => exact ⟨.inputs, rfl, hplays⟩
    | output => exact absurd hmem (by decide)

end members

/-- **The nodes that a document needs**: all symbols, the defaults of states, constants, parameters
and inputs, and all equations. -/
theorem ModelDoc.mem_needs {c : ClassDef} {id : Nat} : id ∈ needs c ↔
    (∃ s ∈ c.symbols.values, s.id = id) ∨
    (∃ s ∈ c.symbols.values, (∃ r ∈ [Role.state, .constant, .parameter, .input], s.is r = true) ∧
      ∃ e, s.default? = some e ∧ e.id = id) ∨
    ∃ e ∈ c.equations, e.id = id := by
  rw [needs, List.mem_append, List.mem_map, ← or_assoc]
  refine or_congr_left ?_
  simp only [VectorDoc.needs, List.mem_flatMap, List.mem_append, List.mem_map]
  constructor
  · rintro ⟨k, -, ⟨s, hs, hid⟩ | hdefault⟩
    · exact .inl ⟨s, k.mem_of_mem_select hs, hid⟩
    · split at hdefault
      · rename_i hdefaults
        obtain ⟨e, he, hid⟩ := List.mem_map.mp hdefault
        obtain ⟨s, hs, hse⟩ := List.mem_filterMap.mp he
        obtain ⟨hs, hrole⟩ := VectorKind.exists_hasDefaults_iff.mp ⟨k, hdefaults, hs⟩
        exact .inr ⟨s, hs, hrole, e, hse, hid⟩
      · cases hdefault
  · rintro (⟨s, hs, hid⟩ | ⟨s, hs, hrole, e, hse, hid⟩)
    · obtain ⟨k, hs⟩ := VectorKind.exists_mem_select hs
      exact ⟨k, k.mem_all, .inl ⟨s, hs, hid⟩⟩
    · obtain ⟨k, hdefaults, hs⟩ := VectorKind.exists_hasDefaults_iff.mpr ⟨hs, hrole⟩
      refine ⟨k, k.mem_all, .inr ?_⟩
      rw [if_pos hdefaults]
      exact List.mem_map.mpr ⟨e, List.mem_filterMap.mpr ⟨s, hs, hse⟩, hid⟩

/-- Nothing that a document needs is missing just if every symbol, every default of a state, a
constant, a parameter or an input, and every equation has a fragment. -/
theorem ModelDoc.firstMissing?_needs_eq_none_iff {c : ClassDef} :
    t.firstMissing? (needs c) = none ↔
      (∀ s ∈ c.symbols.values, (t.get? s.id).isSome = true) ∧
      (∀ s ∈ c.symbols.values, (∃ r ∈ [Role.state, .constant, .parameter, .input], s.is r = true) →
        ∀ e, s.default? = some e → (t.get? e.id).isSome = true) ∧
      ∀ e ∈ c.equations, (t.get? e.id).isSome = true := by
  rw [FragmentTable.firstMissing?_eq_none_iff]
  constructor
  · intro h
    refine ⟨fun s hs => ?_, fun s hs hrole e he => ?_, fun e he => ?_⟩
    · exact h _ (mem_needs.mpr (.inl ⟨s, hs, rfl⟩))
    · exact h _ (mem_needs.mpr (.inr (.inl ⟨s, hs, hrole, e, he, rfl⟩)))
    · exact h _ (mem_needs.mpr (.inr (.inr ⟨e, he, rfl⟩)))
  · rintro ⟨hsymbols, hdefaults, hequations⟩ id hid
    rcases mem_needs.mp hid with ⟨s, hs, rfl⟩ | ⟨s, hs, hrole, e, he, rfl⟩ | ⟨e, he, rfl⟩
    · exact hsymbols s hs
    · exact hdefaults s hs hrole e he
    · exact hequations e he

/-! ## What a document takes from the table -/

/-- The members of symbols are dealt out in order: one whose symbol has a default goes to the default
values, with the fragment of the default; of another one the name of its symbol goes to the names
without a default. -/
inductive VectorDoc.Split (t : FragmentTable) :
    List Symbol → List String → List DefaultEntry → List String → Prop
  /-- No members. -/
  | nil : Split t [] [] [] []
  /-- A first member that goes to the default values. -/
  | default {s : Symbol} {e : Expression} {symbols : List Symbol} {member value : String}
      {members : List String} {defaults : List DefaultEntry} {missing : List String}
      (hdefault : s.default? = some e) (hvalue : t.get? e.id = some value)
      (hrest : Split t symbols members defaults missing) :
      Split t (s :: symbols) (member :: members) (⟨member, value⟩ :: defaults) missing
  /-- A first member whose symbol goes to the names without a default. -/
  | missing {s : Symbol} {symbols : List Symbol} {member : String}
      {members : List String} {defaults : List DefaultEntry} {missing : List String}
      (hdefault : s.default? = none) (hrest : Split t symbols members defaults missing) :
      Split t (s :: symbols) (member :: members) defaults (s.name :: missing)

/-- The document of a vector of given symbols takes its texts from the table. -/
structure VectorDoc.ReadFrom (t : FragmentTable) (k : VectorKind) (symbols : List Symbol)
    (v : VectorDoc) : Prop where
  /-- It is of the right kind. -/
  kind : v.kind = k
  /-- Its members are the fragments of the symbols. -/
  members : List.Forall₂ (fun s text => t.get? s.id = some text) symbols v.members
  /-- The members are what is declared. -/
  declaration : v.declaration = declare k v.members
  /-- In a vector with defaults the members are dealt out. -/
  split : k.hasDefaults = true → Split t symbols v.members v.defaults v.missing
  /-- In another one there are no defaults, and none is missing. -/
  plain : k.hasDefaults = false → v.defaults = [] ∧ v.missing = []

/-- The document of a class takes its texts from the table. -/
structure ModelDoc.ReadFrom (t : FragmentTable) (c : ClassDef) (m : ModelDoc) : Prop where
  /-- It has the name of the class. -/
  name : m.name = c.name
  /-- The vectors are those of the groups, in the order in which they are written. -/
  vectors : List.Forall₂ (fun k v => VectorDoc.ReadFrom t k (k.select c.groups) v) VectorKind.all
    m.vectors
  /-- The residuals are the fragments of the equations. -/
  equations : List.Forall₂ (fun e text => t.get? e.id = some text) c.equations m.equations
  /-- What is missing in the vectors is listed once more, one vector after the other. -/
  missing : m.missingDefaults = m.vectors.flatMap VectorDoc.missing

section split

variable {symbols : List Symbol} {members missing : List String} {defaults : List DefaultEntry}

/-- The names that are left are those of the symbols without a default. -/
theorem VectorDoc.Split.missing_eq (h : Split t symbols members defaults missing) :
    missing = withoutDefault symbols := by
  induction h with
  | nil => rfl
  | default hs _ _ ih => rw [withoutDefault_cons_of_some _ hs, ih]
  | missing hs _ ih => rw [withoutDefault_cons_of_none _ hs, ih]

/-- The default values that are collected are dealt out from the members. -/
theorem VectorDoc.split_of_collectDefaults (hlength : symbols.length = members.length)
    {found : List DefaultEntry × List String}
    (h : collectDefaults t (symbols.zip members) = .ok found) :
    Split t symbols members found.1 found.2 := by
  induction symbols generalizing members found with
  | nil =>
      obtain rfl := List.eq_nil_of_length_eq_zero hlength.symm
      cases h
      exact .nil
  | cons s symbols ih =>
      obtain ⟨member, members, rfl⟩ := List.exists_cons_of_length_eq_add_one hlength.symm
      rw [List.zip_cons_cons] at h
      unfold collectDefaults at h
      rcases hs : s.default? with _ | e
      · rw [hs] at h
        obtain ⟨more, hmore, h⟩ := bind_eq_ok.mp h
        cases h
        exact .missing hs (ih (Nat.succ.inj hlength) hmore)
      · rw [hs] at h
        obtain ⟨value, hvalue, h⟩ := bind_eq_ok.mp h
        obtain ⟨more, hmore, h⟩ := bind_eq_ok.mp h
        cases h
        exact .default hs (FragmentTable.fragment_eq_ok.mp hvalue)
          (ih (Nat.succ.inj hlength) hmore)

end split

/-- **A vector that is built takes its texts from the table.** -/
theorem VectorDoc.readFrom_of_build {k : VectorKind} {symbols : List Symbol} {v : VectorDoc}
    (h : build k symbols t = .ok v) : v.ReadFrom t k symbols := by
  obtain ⟨members, hmembers, h⟩ := bind_eq_ok.mp h
  have hall := mapM_eq_ok.mp hmembers
  have htexts := hall.imp fun _ _ => FragmentTable.fragment_eq_ok.mp
  rcases hk : k.hasDefaults with _ | _
  · rw [hk] at h
    cases h
    exact ⟨rfl, htexts, rfl, fun hk' => absurd (hk.symm.trans hk') nofun, fun _ => ⟨rfl, rfl⟩⟩
  · rw [hk] at h
    obtain ⟨found, hfound, h⟩ := bind_eq_ok.mp h
    cases h
    exact ⟨rfl, htexts, rfl, fun _ => split_of_collectDefaults hall.length_eq hfound,
      fun hk' => absurd (hk.symm.trans hk') nofun⟩

/-- **A document that is built takes its texts from the table.** -/
theorem ModelDoc.readFrom_of_build {c : ClassDef} {m : ModelDoc} (h : build c t = .ok m) :
    m.ReadFrom t c := by
  obtain ⟨vectors, hvectors, h⟩ := bind_eq_ok.mp h
  obtain ⟨equations, hequations, h⟩ := bind_eq_ok.mp h
  cases h
  exact ⟨rfl, (mapM_eq_ok.mp hvectors).imp fun _ _ => VectorDoc.readFrom_of_build,
    (mapM_eq_ok.mp hequations).imp fun _ _ => FragmentTable.fragment_eq_ok.mp, rfl⟩

/-- What is missing in a vector that takes its texts from the table: the names of the symbols without
a default. -/
theorem VectorDoc.ReadFrom.missing_eq {k : VectorKind} {symbols : List Symbol} {v : VectorDoc}
    (h : v.ReadFrom t k symbols) :
    v.missing = if k.hasDefaults then withoutDefault symbols else [] := by
  rcases hk : k.hasDefaults with _ | _
  · exact (h.plain hk).2
  · exact (h.split hk).missing_eq

/-- What a document taken from the table reports as missing: these names, vector after vector. -/
theorem ModelDoc.ReadFrom.missingDefaults_eq {c : ClassDef} {m : ModelDoc} (h : m.ReadFrom t c) :
    m.missingDefaults = VectorKind.all.flatMap fun k =>
      if k.hasDefaults then withoutDefault (k.select c.groups) else [] := by
  have hmissing : (VectorKind.all.map fun k =>
      if k.hasDefaults then withoutDefault (k.select c.groups) else []) =
        m.vectors.map VectorDoc.missing := by
    rw [← List.forall₂_eq_eq_eq, List.forall₂_map_left_iff, List.forall₂_map_right_iff]
    exact h.vectors.imp fun _ _ hv => hv.missing_eq.symm
  rw [h.missing, List.flatMap_def, List.flatMap_def, hmissing]

/-! ## All or nothing -/

/-- **A document is built all at once or not at all.**  Whatever the numbers of the nodes and whatever
the table holds: a class has a document just if the table has a fragment for every symbol, for the
default of every state, constant, parameter and input that has one, and for every equation.
Otherwise the error is the first missing fragment, vectors in the order in which they are written,
members before defaults in each of them, and equations at the end.  A document takes all its texts
from the table; in every vector with defaults the members are dealt out in order to the default
values and to the names without a default, and these names one vector after the other are what the
document reports as missing. -/
theorem ModelDoc.build_all_or_nothing (c : ClassDef) (t : FragmentTable) :
    ((∃ m, build c t = .ok m) ↔
      (∀ s ∈ c.symbols.values, (t.get? s.id).isSome = true) ∧
      (∀ s ∈ c.symbols.values, (∃ r ∈ [Role.state, .constant, .parameter, .input], s.is r = true) →
        ∀ e, s.default? = some e → (t.get? e.id).isSome = true) ∧
      ∀ e ∈ c.equations, (t.get? e.id).isSome = true) ∧
    (∀ err, build c t = .error err ↔
      ∃ id, t.firstMissing? (needs c) = some id ∧ err = .missingFragment id) ∧
    ∀ m, build c t = .ok m → m.ReadFrom t c ∧
      m.missingDefaults = VectorKind.all.flatMap fun k =>
        if k.hasDefaults then withoutDefault (k.select c.groups) else [] := by
  have hdemands := demands_build c t
  refine ⟨?_, fun err => hdemands.eq_error_iff, fun m hm => ?_⟩
  · rw [hdemands.exists_ok_iff]
    exact firstMissing?_needs_eq_none_iff
  · have hread := readFrom_of_build hm
    exact ⟨hread, hread.missingDefaults_eq⟩

/-- A parameter with a value, a state that is an output, and a parameter without a value. -/
def gauge : ClassDef where
  name := "Gauge"
  symbols := .ofList
    [("g", ⟨"g", 0, .ofList [.parameter], some (.literal 4 (.integer 2)), none, 3⟩),
      ("x", ⟨"x", 1, .ofList [.state, .output], none, some (.literal 9 (.integer 1)), 1⟩),
      ("k", ⟨"k", 2, .ofList [.parameter], none, none, 7⟩)]
  equations := [⟨.operation 5 "der" [.reference 5 "x"], .reference 5 "g", 5⟩]

/-- Fragments for all nodes of the class but the value of `g`, and perhaps none for `k`. -/
def gaugeTexts (k value : Option String) : FragmentTable :=
  ⟨#[none, some "x", none, some "g", value, some "(x).diff(self.t) - (g)", none, k, none, some "1"]⟩

/-- Without fragments for `k` and the value of `g`, it is `k` that is missing; with both, there is a
document. -/
theorem ModelDoc.build_all_or_nothing_gauge :
    build gauge (gaugeTexts none none) = .error (.missingFragment 7) ∧
      build gauge (gaugeTexts (some "k") none) = .error (.missingFragment 4) ∧
      ∃ m, build gauge (gaugeTexts (some "k") (some "2")) = .ok m ∧
        m.missingDefaults = ["k"] ∧ m.equations = ["(x).diff(self.t) - (g)"] := by
  have horder : SymbolGroups.inOrder gauge.symbols.values = gauge.symbols.values :=
    SymbolGroups.inOrder_eq_self (by decide)
  have hneeds : needs gauge = [1, 9, 3, 7, 4, 1, 5] := by
    rw [needs, ClassDef.groups, SymbolGroups.ofList, horder]
    rfl
  have hnames : (VectorKind.all.flatMap fun k =>
      if k.hasDefaults then withoutDefault (k.select gauge.groups) else []) = ["k"] := by
    rw [ClassDef.groups, SymbolGroups.ofList, horder]
    rfl
  obtain ⟨-, hbare, -⟩ := build_all_or_nothing gauge (gaugeTexts none none)
  obtain ⟨-, hpartial, -⟩ := build_all_or_nothing gauge (gaugeTexts (some "k") none)
  obtain ⟨hiff, -, hread⟩ := build_all_or_nothing gauge (gaugeTexts (some "k") (some "2"))
  rw [hneeds] at hbare hpartial
  obtain ⟨m, hm⟩ := hiff.mpr (by decide +kernel)
  obtain ⟨hfrom, hmissing⟩ := hread m hm
  refine ⟨(hbare _).mpr ⟨7, rfl, rfl⟩, (hpartial _).mpr ⟨4, rfl, rfl⟩, m, hm,
    hmissing.trans hnames, ?_⟩
  obtain ⟨text, rest, htext, hrest, hequations⟩ := List.forall₂_cons_left_iff.mp hfrom.equations
  cases hrest
  cases htext
  exact hequations

end FlatModel.Emission
