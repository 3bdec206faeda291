import Mathlib.Data.List.Nodup
import FlatModel.Dae.Lowering
import FlatModel.Proofs.Except

/-!
# The vectors of a model

* `Dae.Model.ofClass_parts` — what the model of a class is put together from: the identifiers of the
  groups of its symbols, their lowered defaults and the lowered equations.
* `SymbolGroups.mem_group`, `mem_of_mem_outputs` — every symbol is a state, an algebraic variable, a
  constant, a parameter or an input, and every output is one of the first two.
* `SymbolGroups.nodup_states`, `nodup_algebraics` — if the symbols of a class have different
  identifiers, no identifier is twice a state or twice an algebraic variable.
-/

namespace FlatModel

/-- Every symbol of the class stands under its own name. -/
def ClassDef.IsKeyed (c : ClassDef) : Prop := ∀ p ∈ c.symbols.entries, p.1 = p.2.name

/-- A symbol that plays a role is not without roles. -/
theorem Symbol.isEmpty_roles {s : Symbol} {r : Role} (h : s.is r = true) :
    s.roles.isEmpty = false := by
  rw [Roles.isEmpty, List.isEmpty_eq_false_iff]
  exact List.ne_nil_of_mem ((Roles.mem_toList s.roles r).mpr h)

namespace SymbolGroups

/-! ## Members of groups -/

section members

variable {symbols : List Symbol} {s : Symbol}

/-- The symbols in order are the symbols. -/
theorem mem_inOrder : s ∈ inOrder symbols ↔ s ∈ symbols :=
  (List.mergeSort_perm symbols _).mem_iff

/-- A symbol is in the group of each of its roles. -/
theorem mem_playing {r : Role} : s ∈ (inOrder symbols).filter (fun s => s.is r) ↔
    s ∈ symbols ∧ s.is r = true := by
  rw [List.mem_filter, mem_inOrder]

/-- The algebraic variables are the symbols without a role and the outputs that are no states. -/
theorem mem_algebraics : s ∈ (ofList symbols).algebraics ↔
    s ∈ symbols ∧ (s.roles.isEmpty = true ∨ s.is .output = true ∧ s.is .state = false) := by
  show s ∈ _ ++ _ ↔ _
  rw [List.mem_append, List.mem_filter, List.mem_filter, mem_playing, mem_inOrder, and_assoc,
    Bool.not_eq_true', ← and_or_left]

/-- An output is a state or an algebraic variable. -/
theorem mem_of_mem_outputs (h : s ∈ (ofList symbols).outputs) :
    s ∈ (ofList symbols).states ∨ s ∈ (ofList symbols).algebraics := by
  obtain ⟨hs, houtput⟩ := mem_playing.mp h
  rcases hstate : s.is .state with _ | _
  · exact .inr (mem_algebraics.mpr ⟨hs, .inr ⟨houtput, hstate⟩⟩)
  · exact .inl (mem_playing.mpr ⟨hs, hstate⟩)

/-- Every symbol is in a group. -/
theorem mem_group (h : s ∈ symbols) :
    s ∈ (ofList symbols).states ∨ s ∈ (ofList symbols).algebraics ∨
      s ∈ (ofList symbols).constants ∨ s ∈ (ofList symbols).parameters ∨
        s ∈ (ofList symbols).inputs := by
  have hplays : ∀ {r : Role}, s.is r = true → s ∈ (inOrder symbols).filter fun s => s.is r :=
    fun hr => mem_playing.mpr ⟨h, hr⟩
  rcases hroles : s.roles.toList with _ | ⟨r, rest⟩
  · refine .inr (.inl (mem_algebraics.mpr ⟨h, .inl ?_⟩))
    rw [Roles.isEmpty, hroles]
    rfl
  · have hr : s.is r = true := (Roles.mem_toList s.roles r).mp (hroles ▸ List.mem_cons_self)
    cases r with
    | state => exact .inl (hplays hr)
    | input => exact .inr (.inr (.inr (.inr (hplays hr))))
    | output => exact (mem_of_mem_outputs (hplays hr)).imp_right .inl
    | constant => exact .inr (.inr (.inl (hplays hr)))
    | parameter => exact .inr (.inr (.inr (.inl (hplays hr))))

end members

/-! ## Different symbols -/

variable {β : Type} {f : Symbol → β} {symbols : List Symbol}

/-- The symbols in order are the symbols. -/
theorem nodup_inOrder (h : (symbols.map f).Nodup) : ((inOrder symbols).map f).Nodup :=
  ((List.mergeSort_perm symbols _).map f).nodup_iff.mpr h

/-- Different symbols play a role. -/
theorem nodup_filter (h : (symbols.map f).Nodup) (p : Symbol → Bool) :
    (((inOrder symbols).filter p).map f).Nodup :=
  (nodup_inOrder h).sublist (List.filter_sublist.map f)

/-- Different symbols are states. -/
theorem nodup_states (h : (symbols.map f).Nodup) : ((ofList symbols).states.map f).Nodup :=
  nodup_filter h _

/-- Different symbols are algebraic variables: none is both without a role and an output. -/
theorem nodup_algebraics (h : (symbols.map f).Nodup) :
    ((ofList symbols).algebraics.map f).Nodup := by
  have houtput : (((inOrder symbols).filter fun s => s.is .output).filter
      fun s => !s.is .state).Sublist ((inOrder symbols).filter fun s => s.is .output) :=
    List.filter_sublist
  show (List.map f (_ ++ _)).Nodup
  rw [List.map_append, List.nodup_append]
  refine ⟨nodup_filter h _, (nodup_filter h _).sublist (houtput.map f), ?_⟩
  rintro _ hx _ hy rfl
  obtain ⟨s, hs, hsf⟩ := List.mem_map.mp hx
  obtain ⟨t, ht, htf⟩ := List.mem_map.mp hy
  rw [List.mem_filter] at hs
  obtain ⟨ht, hrole⟩ := List.mem_filter.mp (houtput.subset ht)
  -- equal identifiers belong to the same symbol
  have hst : s = t := List.inj_on_of_nodup_map (nodup_inOrder h) hs.1 ht (hsf.trans htf.symm)
  rw [hst, Symbol.isEmpty_roles hrole] at hs
  cases hs.2

end SymbolGroups

namespace Dae

variable {K : Type} [Symbolic.Scalar K]

/-- The parts of the model of a class. -/
theorem Model.ofClass_parts {c : ClassDef} {m : Model K} (h : Model.ofClass c = .ok m) :
    ∃ x0 c0 p0 u0 residuals,
      lowerDefaults (.ofClass c) c.groups.states = .ok x0 ∧
      lowerDefaults (.ofClass c) c.groups.constants = .ok c0 ∧
      lowerDefaults (.ofClass c) c.groups.parameters = .ok p0 ∧
      lowerDefaults (.ofClass c) c.groups.inputs = .ok u0 ∧
      c.equations.mapM (lowerEquation (.ofClass c)) = .ok residuals ∧
      m = {
        name := c.name
        states := identifiers c.groups.states
        algebraics := identifiers c.groups.algebraics
        constants := identifiers c.groups.constants
        parameters := identifiers c.groups.parameters
        inputs := identifiers c.groups.inputs
        outputs := identifiers c.groups.outputs
        stateDefaults := .ofList x0.1
        constantDefaults := .ofList c0.1
        parameterDefaults := .ofList p0.1
        inputDefaults := .ofList u0.1
        residuals := residuals
        missingDefaults := x0.2 ++ c0.2 ++ p0.2 ++ u0.2 } := by
  obtain ⟨x0, hx, h⟩ := bind_eq_ok.mp h
  obtain ⟨c0, hc, h⟩ := bind_eq_ok.mp h
  obtain ⟨p0, hp, h⟩ := bind_eq_ok.mp h
  obtain ⟨u0, hu, h⟩ := bind_eq_ok.mp h
  obtain ⟨residuals, hr, h⟩ := bind_eq_ok.mp h
  cases h
  exact ⟨x0, c0, p0, u0, residuals, hx, hc, hp, hu, hr, rfl⟩

/-- States and algebraic variables of the model of a class. -/
theorem Model.ofClass_eq_ok {c : ClassDef} {m : Model K} (h : Model.ofClass c = .ok m) :
    m.states = identifiers c.groups.states ∧ m.algebraics = identifiers c.groups.algebraics := by
  obtain ⟨_, _, _, _, _, _, _, _, _, _, rfl⟩ := ofClass_parts h
  exact ⟨rfl, rfl⟩

end Dae

end FlatModel
