import Mathlib.Logic.Relation
import Mathlib.Order.Bounds.Defs
import Mathlib.Order.WellFounded
import FlatModel.Identifier.Basic

/-!
# Identifiers that are free

A name that is taken gets underscores until it is free, whatever finite set of names is taken.

* `Identifier.Lengthens` — one turn of the search: a taken name gets one more underscore.
* `Identifier.room` — how many taken names a name could still meet; every turn lowers it, so the
  search ends (`wellFounded_lengthens`).
* `Identifier.search_iff` — `avoid` finds where the search ends.
* `Identifier.isLeast_avoid` — it appends as few underscores as possible.
* `Identifier.sanitize_least` — the identifier of a dotted name.
-/

namespace FlatModel.Identifier

variable {taken : List String} {ident : String}

/-! ## The search -/

/-- One turn of the search for a free name: a name that is taken gets one more underscore. -/
def Lengthens (taken : List String) (ident next : String) : Prop :=
  ident ∈ taken ∧ next = ident.push '_'

/-- The taken names that are not shorter than a name.  The search can meet no others. -/
def room (taken : List String) (ident : String) : ℕ :=
  taken.countP fun name => ident.length ≤ name.length

/-- A turn leaves the name itself behind. -/
theorem room_push_lt (h : ident ∈ taken) : room taken (ident.push '_') < room taken ident := by
  have hpush : ∀ names : List String, room names (ident.push '_') ≤ room names ident := by
    intro names
    refine List.countP_mono_left fun name _ hname => ?_
    rw [decide_eq_true_eq, String.length_push] at hname
    exact decide_eq_true (Nat.le_of_succ_le hname)
  obtain ⟨before, after, rfl⟩ := List.append_of_mem h
  have hbefore := hpush before
  have hafter := hpush after
  simp only [room, List.countP_append, List.countP_cons, String.length_push, Nat.not_succ_le_self,
    decide_false, le_refl, decide_true, if_true, Bool.false_eq_true, if_false] at hbefore hafter ⊢
  omega

/-- **The search ends**, from every name and for every finite set of taken names. -/
theorem wellFounded_lengthens (taken : List String) :
    WellFounded fun next ident => Lengthens taken ident next := by
  refine (InvImage.wf (room taken) Nat.lt_wfRel.wf).mono ?_
  rintro _ ident ⟨htaken, rfl⟩
  exact room_push_lt htaken

/-- A turn has one outcome. -/
theorem rightUnique_lengthens (taken : List String) : Relator.RightUnique (Lengthens taken) :=
  fun _ _ _ h h' => h.2.trans h'.2.symm

/-- A free name stays as it is. -/
theorem avoid_of_notMem (h : ident ∉ taken) : ∀ fuel, avoid taken fuel ident = ident
  | 0 => rfl
  | fuel + 1 => by
      rw [avoid, List.contains_eq_mem, decide_eq_false h]
      rfl

/-- A taken name gets an underscore. -/
theorem avoid_of_mem (h : ident ∈ taken) (fuel : ℕ) :
    avoid taken (fuel + 1) ident = avoid taken fuel (ident.push '_') := by
  rw [avoid, List.contains_eq_mem, decide_eq_true h]
  rfl

/-- The search leads to the name that is found. -/
theorem lengthens_avoid (taken : List String) (fuel : ℕ) : ∀ ident : String,
    Relation.ReflTransGen (Lengthens taken) ident (avoid taken fuel ident) := by
  induction fuel with
  | zero => exact fun _ => .refl
  | succ fuel ih =>
      intro ident
      by_cases h : ident ∈ taken
      · rw [avoid_of_mem h]
        exact .head ⟨h, rfl⟩ (ih _)
      · rw [avoid_of_notMem h]

/-- What an underscore does not destroy, the search does not. -/
theorem avoid_keeps {p : String → Prop} (hpush : ∀ s, p s → p (s.push '_')) (taken : List String)
    (fuel : ℕ) (h : p ident) : p (avoid taken fuel ident) := by
  have hsearch := lengthens_avoid taken fuel ident
  generalize avoid taken fuel ident = found at hsearch ⊢
  induction hsearch with
  | refl => exact h
  | tail _ hturn ih =>
      rw [hturn.2]
      exact hpush _ ih

/-- The name that is found is free, if there are enough turns for the names that could be met. -/
theorem avoid_notMem {fuel : ℕ} : ∀ {ident : String}, room taken ident ≤ fuel →
    avoid taken fuel ident ∉ taken := by
  induction fuel with
  | zero =>
      intro ident hroom h
      have hlt : room taken (ident.push '_') < room taken ident := room_push_lt h
      omega
  | succ fuel ih =>
      intro ident hroom
      by_cases h : ident ∈ taken
      · have hlt := room_push_lt h
        rw [avoid_of_mem h]
        exact ih (by omega)
      · rwa [avoid_of_notMem h]

/-- As many turns as there are taken names are enough. -/
theorem avoid_length_notMem (taken : List String) (ident : String) :
    avoid taken taken.length ident ∉ taken :=
  avoid_notMem List.countP_le_length

/-- **Where the search ends.**  The name that is found is the only one at which a search from
`ident` can stop. -/
theorem search_iff (taken : List String) (ident last : String) :
    (Relation.ReflTransGen (Lengthens taken) ident last ∧ last ∉ taken) ↔
      last = avoid taken taken.length ident := by
  have hfound := avoid_length_notMem taken ident
  -- no search leads on from a free name
  have hstop : ∀ {s t : String}, Relation.ReflTransGen (Lengthens taken) s t → s ∉ taken →
      s = t := by
    intro s t hst hs
    rcases hst.cases_head with heq | ⟨_, hturn, _⟩
    · exact heq
    · exact absurd hturn.1 hs
  constructor
  · rintro ⟨hlast, hfree⟩
    rcases Relation.ReflTransGen.total_of_right_unique (rightUnique_lengthens taken) hlast
      (lengthens_avoid taken taken.length ident) with h | h
    · exact hstop h hfree
    · exact (hstop h hfound).symm
  · rintro rfl
    exact ⟨lengthens_avoid taken _ ident, hfound⟩

/-! ## How many underscores -/

/-- Underscores appended after the first one. -/
theorem pushn_push (ident : String) (c : Char) (k : ℕ) :
    (ident.push c).pushn c k = ident.pushn c (k + 1) := by
  induction k with
  | zero => rfl
  | succ k ih => exact congrArg (String.push · c) ih

/-- All names on the way to the name that is found are taken. -/
theorem exists_avoid_eq (taken : List String) (fuel : ℕ) : ∀ ident : String,
    ∃ k, avoid taken fuel ident = ident.pushn '_' k ∧ ∀ j < k, ident.pushn '_' j ∈ taken := by
  induction fuel with
  | zero => exact fun _ => ⟨0, rfl, nofun⟩
  | succ fuel ih =>
      intro ident
      by_cases h : ident ∈ taken
      · obtain ⟨k, havoid, hway⟩ := ih (ident.push '_')
        refine ⟨k + 1, by rw [avoid_of_mem h, havoid, pushn_push], fun j hj => ?_⟩
        cases j with
        | zero => exact h
        | succ j =>
            rw [← pushn_push]
            exact hway j (Nat.lt_of_succ_lt_succ hj)
      · exact ⟨0, avoid_of_notMem h _, nofun⟩

/-- **As few underscores as possible** are appended. -/
theorem isLeast_avoid (taken : List String) (ident : String) :
    ∃ k, IsLeast {k | ident.pushn '_' k ∉ taken} k ∧
      avoid taken taken.length ident = ident.pushn '_' k := by
  obtain ⟨k, havoid, hway⟩ := exists_avoid_eq taken taken.length ident
  have hfree := avoid_length_notMem taken ident
  rw [havoid] at hfree
  refine ⟨k, ⟨hfree, fun j hj => ?_⟩, havoid⟩
  by_contra hlt
  exact hj (hway j (Nat.lt_of_not_le hlt))

/-! ## Dotted names -/

/-- A name is reserved if it is in the table. -/
theorem isReserved_iff {name : String} : isReserved name = true ↔ name ∈ reserved :=
  List.contains_iff_mem

/-- A flat form has no dots. -/
theorem dot_notMem_flatten (name : String) : '.' ∉ (flatten name).toList := by
  rw [flatten, String.toList_ofList, List.mem_flatMap]
  rintro ⟨c, _, hdot⟩
  unfold flattenChar at hdot
  split at hdot
  · simp at hdot
  · rename_i hc
    exact hc (List.mem_singleton.mp hdot).symm

/-- A name without dots is its own flat form. -/
theorem flatten_of_notMem {name : String} (h : '.' ∉ name.toList) : flatten name = name := by
  have hchars : ∀ {cs : List Char}, '.' ∉ cs → cs.flatMap flattenChar = cs := by
    intro cs hcs
    induction cs with
    | nil => rfl
    | cons c rest ih =>
        obtain ⟨hc, hrest⟩ := not_or.mp (mt List.mem_cons.mpr hcs)
        rw [List.flatMap_cons, ih hrest, flattenChar, if_neg (Ne.symm hc)]
        rfl
  rw [flatten, hchars h, String.ofList_toList]

/-- An identifier has no dots. -/
theorem dot_notMem_sanitize (name : String) : '.' ∉ (sanitize name).toList := by
  refine avoid_keeps (p := fun s => '.' ∉ s.toList) (fun s hs => ?_) _ _ (dot_notMem_flatten name)
  rw [String.toList_push, List.mem_append]
  rintro (h | h)
  · exact hs h
  · simp at h

/-- An identifier is not reserved. -/
theorem isReserved_sanitize (name : String) : isReserved (sanitize name) = false := by
  rw [Bool.eq_false_iff, ne_eq, isReserved_iff]
  exact avoid_length_notMem reserved (flatten name)

/-- **The identifier of a dotted name.**  Whatever finite set of names is taken, the search that
starts from the flat form ends, and there is one name at which it does.  With the reserved names
taken it ends at the identifier: the flat form with as few underscores as make it no reserved name.
The identifier has no dots and is its own identifier. -/
theorem sanitize_least (name : String) :
    (∀ taken : List String, WellFounded (fun next ident => Lengthens taken ident next) ∧
      ∀ last, (Relation.ReflTransGen (Lengthens taken) (flatten name) last ∧ last ∉ taken) ↔
        last = avoid taken taken.length (flatten name)) ∧
    sanitize name = avoid reserved reserved.length (flatten name) ∧
    isReserved (sanitize name) = false ∧
    '.' ∉ (sanitize name).toList ∧
    (∃ k, IsLeast {k | isReserved ((flatten name).pushn '_' k) = false} k ∧
      sanitize name = (flatten name).pushn '_' k) ∧
    sanitize (sanitize name) = sanitize name := by
  have hdot := dot_notMem_sanitize name
  have hfree := isReserved_sanitize name
  refine ⟨fun taken => ⟨wellFounded_lengthens taken, search_iff taken (flatten name)⟩, rfl, hfree,
    hdot, ?_, ?_⟩
  · simp only [Bool.eq_false_iff, ne_eq, isReserved_iff]
    exact isLeast_avoid reserved (flatten name)
  · rw [Bool.eq_false_iff, ne_eq, isReserved_iff] at hfree
    show avoid reserved _ (flatten (sanitize name)) = sanitize name
    rw [flatten_of_notMem hdot, avoid_of_notMem hfree]

/-- A flat form may be reserved where the dotted name is not. -/
example : sanitize ".doc." = "__doc___" := by decide +kernel

end FlatModel.Identifier
