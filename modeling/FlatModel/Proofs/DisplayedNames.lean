import Mathlib.Data.List.Chain
import Mathlib.Data.Set.Function
import FlatModel.Proofs.FreeIdentifiers

/-!
# Names that identifiers show

Pairs of underscores are read as dots from the left.  So an identifier shows the dotted name it was
made for just if the name has no underscore before another one or before a dot.

* `Identifier.IsPlain` — no underscore stands before an underscore or a dot.
* `Identifier.isChain_unflatten` — what is shown of a text without dots is plain.
* `Identifier.unflatten_flatten` — the flat form of a plain name shows the name.
* `Identifier.sanitize_eq` — one underscore is enough to leave the reserved names.
* `Identifier.injOn_sanitize` — plain names without an underscore at the end have different
  identifiers.
* `Identifier.display_sanitize_iff` — the names that are shown.
-/

namespace FlatModel.Identifier

/-! ## Plain names -/

/-- The name holds neither two underscores in a row nor an underscore followed by a dot. -/
def IsPlain (name : String) : Prop :=
  ¬ ['_', '_'] <:+: name.toList ∧ ¬ ['_', '.'] <:+: name.toList

/-- Characters that may follow each other in a plain name. -/
def MayPrecede (c d : Char) : Prop := c = '_' → d ≠ '_' ∧ d ≠ '.'

/-- In a plain name every two neighbours may follow each other. -/
theorem isPlain_iff {name : String} : IsPlain name ↔ name.toList.IsChain MayPrecede := by
  rw [List.isChain_iff_forall_rel_of_append_cons_cons]
  constructor
  · rintro ⟨hpair, hdot⟩ c d before after hname rfl
    refine ⟨?_, ?_⟩
    · rintro rfl
      exact hpair ⟨before, after, by rw [hname, List.append_assoc]; rfl⟩
    · rintro rfl
      exact hdot ⟨before, after, by rw [hname, List.append_assoc]; rfl⟩
  · intro h
    refine ⟨?_, ?_⟩
    · rintro ⟨before, after, hname⟩
      rw [List.append_assoc] at hname
      exact (h hname.symm rfl).1 rfl
    · rintro ⟨before, after, hname⟩
      rw [List.append_assoc] at hname
      exact (h hname.symm rfl).2 rfl

/-! ## Pairs of underscores -/

/-- A character stays unless it begins a pair. -/
theorem unflatten_cons {c : Char} {rest : List Char} (h : c = '_' → rest.head? ≠ some '_') :
    unflatten (c :: rest) = c :: unflatten rest := by
  rw [unflatten]
  rintro r rfl rfl
  exact h rfl rfl

/-- **What is shown of a text without dots is plain**: an underscore is left only where no other one
follows, and all dots come from pairs. -/
theorem isChain_unflatten {cs : List Char} (h : '.' ∉ cs) : (unflatten cs).IsChain MayPrecede := by
  fun_induction unflatten cs with
  | case1 rest ih =>
      simp only [List.mem_cons, not_or] at h
      exact List.isChain_cons.mpr ⟨fun _ _ hc => absurd hc (by decide), ih h.2.2⟩
  | case2 c rest hpair ih =>
      rw [List.mem_cons, not_or] at h
      refine List.isChain_cons.mpr ⟨fun d hd hc => ?_, ih h.2⟩
      cases rest with
      | nil => cases hd
      | cons e rest =>
          have he : e ≠ '_' := by
            rintro rfl
            exact hpair rest hc rfl
          rw [unflatten_cons fun h => absurd h he] at hd
          cases hd
          exact ⟨he, fun hdot => h.2 (hdot ▸ List.mem_cons_self)⟩
  | case3 => exact .nil

/-- **The flat form shows the characters of a plain name.**  The induction is on the name; a pair of
underscores in the flat form is a dot, since an underscore of the name is followed by a character
that stays as it is. -/
theorem unflatten_flatten {cs : List Char} (h : cs.IsChain MayPrecede) :
    unflatten (cs.flatMap flattenChar) = cs := by
  induction cs with
  | nil => rfl
  | cons c rest ih =>
      obtain ⟨hhead, hrest⟩ := List.isChain_cons.mp h
      rw [List.flatMap_cons]
      by_cases hc : c = '.'
      · subst hc
        exact congrArg ('.' :: ·) (ih hrest)
      · rw [flattenChar, if_neg hc, List.singleton_append, unflatten_cons, ih hrest]
        intro hunderscore
        cases rest with
        | nil =>
            intro heq
            cases heq
        | cons d rest =>
            obtain ⟨hd, hdot⟩ := hhead d rfl hunderscore
            rw [List.flatMap_cons, flattenChar, if_neg hdot]
            exact fun heq => hd (Option.some.inj heq)

/-! ## Reserved names -/

/-- A reserved name that ends in an underscore is not reserved without it. -/
theorem dropLast_notMem_reserved : ∀ name ∈ reserved, name.toList.getLast? = some '_' →
    String.ofList name.toList.dropLast ∉ reserved := by
  decide +kernel

/-- A reserved name is not reserved with an underscore at the end. -/
theorem push_notMem_reserved {name : String} (h : name ∈ reserved) : name.push '_' ∉ reserved := by
  intro hpush
  have hdrop := dropLast_notMem_reserved _ hpush (by simp)
  rw [String.toList_push, List.dropLast_concat, String.ofList_toList] at hdrop
  exact hdrop h

/-- Reserved names end in other characters than an underscore, or in a pair of underscores. -/
theorem getLast?_unflatten_reserved : ∀ name ∈ reserved,
    (unflatten name.toList).getLast? ≠ some '_' := by
  decide +kernel

/-- One underscore is enough to leave the reserved names. -/
theorem sanitize_eq (name : String) : sanitize name =
    if isReserved (flatten name) then (flatten name).push '_' else flatten name := by
  symm
  refine (search_iff reserved (flatten name) _).mp ?_
  split_ifs with h
  · rw [isReserved_iff] at h
    exact ⟨.single ⟨h, rfl⟩, push_notMem_reserved h⟩
  · rw [isReserved_iff] at h
    exact ⟨.refl, h⟩

/-! ## Names and identifiers -/

/-- What an identifier shows is plain. -/
theorem isPlain_display_sanitize (name : String) : IsPlain (display (sanitize name)) := by
  rw [isPlain_iff, display, String.toList_ofList]
  exact isChain_unflatten (dot_notMem_sanitize name)

/-- A name is plain if it is with an underscore at the end. -/
theorem isPlain_of_push {name : String} (h : IsPlain (name.push '_')) : IsPlain name := by
  rw [isPlain_iff, String.toList_push] at h
  exact isPlain_iff.mpr h.left_of_append

/-- The flat form of a plain name shows the name. -/
theorem display_flatten {name : String} (h : IsPlain name) : display (flatten name) = name := by
  rw [display, flatten, String.toList_ofList, unflatten_flatten (isPlain_iff.mp h),
    String.ofList_toList]

/-- An underscore after the flat form of a name is shown behind the name if the two are plain
together. -/
theorem display_push_flatten {name : String} (h : IsPlain (name.push '_')) :
    display ((flatten name).push '_') = name.push '_' := by
  have hflat : (flatten name).push '_' = flatten (name.push '_') := by
    rw [← String.toList_inj]
    simp [flatten, flattenChar]
  rw [hflat, display_flatten h]

/-- A plain name with a reserved flat form does not end in an underscore, so it may get one. -/
theorem isPlain_push {name : String} (h : IsPlain name)
    (hreserved : isReserved (flatten name) = true) : IsPlain (name.push '_') := by
  have hlast := getLast?_unflatten_reserved _ (isReserved_iff.mp hreserved)
  rw [flatten, String.toList_ofList, unflatten_flatten (isPlain_iff.mp h)] at hlast
  rw [isPlain_iff, String.toList_push, List.isChain_append]
  refine ⟨isPlain_iff.mp h, .singleton _, fun c hc d _ hunderscore => ?_⟩
  subst hunderscore
  exact absurd hc hlast

/-- **The identifier of a plain name shows the name**, with an underscore behind it if the flat form
is reserved. -/
theorem display_sanitize {name : String} (h : IsPlain name) : display (sanitize name) =
    if isReserved (flatten name) then name.push '_' else name := by
  rw [sanitize_eq]
  split_ifs with hreserved
  · exact display_push_flatten (isPlain_push h hreserved)
  · exact display_flatten h

/-- A name that its identifier shows is plain, also if an underscore is shown behind it. -/
theorem isPlain_of_display_sanitize {name : String} (h : display (sanitize name) = name ∨
    isReserved (flatten name) = true ∧ display (sanitize name) = name.push '_') : IsPlain name := by
  have hplain := isPlain_display_sanitize name
  rcases h with h | ⟨_, h⟩
  · rwa [h] at hplain
  · rw [h] at hplain
    exact isPlain_of_push hplain

/-- Plain names that do not end in an underscore have different identifiers. -/
theorem injOn_sanitize :
    Set.InjOn sanitize {name | IsPlain name ∧ name.toList.getLast? ≠ some '_'} := by
  -- what is shown of a common identifier is one of the names, with or without an underscore
  rintro name ⟨hname, hlast⟩ name' ⟨hname', hlast'⟩ heq
  have hshown := congrArg display heq
  rw [display_sanitize hname, display_sanitize hname'] at hshown
  split_ifs at hshown
  · rw [← String.toList_inj, String.toList_push, String.toList_push] at hshown
    exact String.toList_inj.mp (List.append_cancel_right hshown)
  · subst hshown
    simp at hlast'
  · subst hshown
    simp at hlast
  · exact hshown

/-- **Which names identifiers show.**  An identifier shows the dotted name it was made for, with an
underscore behind it if the flat form is reserved, just if the name is plain.  So plain names that
do not end in an underscore have different identifiers. -/
theorem display_sanitize_iff :
    (∀ name,
      (display (sanitize name) = (if isReserved (flatten name) then name.push '_' else name) ↔
        IsPlain name) ∧
      (display (sanitize name) = name ∨
        isReserved (flatten name) = true ∧ display (sanitize name) = name.push '_' ↔
          IsPlain name)) ∧
    Set.InjOn sanitize {name | IsPlain name ∧ name.toList.getLast? ≠ some '_'} := by
  refine ⟨fun name => ?_, injOn_sanitize⟩
  have heither : display (sanitize name) =
      (if isReserved (flatten name) then name.push '_' else name) → display (sanitize name) = name ∨
        isReserved (flatten name) = true ∧ display (sanitize name) = name.push '_' := by
    intro h
    split_ifs at h with hreserved
    · exact .inr ⟨hreserved, h⟩
    · exact .inl h
  constructor
  · exact ⟨fun h => isPlain_of_display_sanitize (heither h), display_sanitize⟩
  · exact ⟨isPlain_of_display_sanitize, fun h => heither (display_sanitize h)⟩

/-- A reserved name shares its identifier with the name it gets. -/
example : sanitize "sum" = sanitize "sum_" := by decide +kernel

end FlatModel.Identifier
