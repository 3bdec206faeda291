import Mathlib.Data.List.Forall2
import FlatModel.Dae.Basic

/-!
# Computations that succeed

* `bind_eq_ok` — a sequence of computations succeeds if each of them does.
* `bind_eq_error` — it fails if one of them does.
* `combine_eq_ok`, `results_of_combine_eq_ok`, `combine_eq_error` — the same of what combines two
  results.
* `mapM_eq_ok`, `exists_of_mem_mapM`, `exists_mapM_eq_ok` — a computation for each item of a list succeeds if it does at
  every item, and its results are those of the items.
* `exists_of_mapM_eq_error` — it fails only if it does at an item.
* `Dae.liftSymbolic_eq_ok`, `Dae.liftSymbolic_eq_error` — a symbolic computation inside of one about models.
-/

namespace FlatModel

variable {ε α β : Type}

/-- A computation that goes on with the result of another one succeeds if both do. -/
theorem bind_eq_ok {x : Except ε α} {f : α → Except ε β} {b : β} :
    x.bind f = .ok b ↔ ∃ a, x = .ok a ∧ f a = .ok b := by
  cases x with
  | error e => exact ⟨nofun, fun ⟨_, h, _⟩ => nomatch h⟩
  | ok a =>
      constructor
      · exact fun h => ⟨a, rfl, h⟩
      · rintro ⟨a', h, hf⟩
        cases h
        exact hf

/-- A computation that goes on with the result of another one fails if either of them does. -/
theorem bind_eq_error {x : Except ε α} {f : α → Except ε β} {e : ε} :
    x.bind f = .error e ↔ x = .error e ∨ ∃ a, x = .ok a ∧ f a = .error e := by
  cases x with
  | error e' =>
      constructor
      · intro h
        cases h
        exact .inl rfl
      · rintro (h | ⟨_, h, _⟩)
        · cases h
          rfl
        · cases h
  | ok a =>
      constructor
      · exact fun h => .inr ⟨a, rfl, h⟩
      · rintro (h | ⟨a', h, hf⟩)
        · cases h
        · cases h
          exact hf

/-- What combines the results of two computations that succeed. -/
theorem combine_eq_ok {γ : Type} {x : Except ε α} {y : Except ε β} {f : α → β → γ} {a : α} {b : β}
    (hx : x = .ok a) (hy : y = .ok b) :
    (do let a ← x; let b ← y; return f a b) = Except.ok (f a b) :=
  bind_eq_ok.mpr ⟨a, hx, bind_eq_ok.mpr ⟨b, hy, rfl⟩⟩

/-- What combines the results of two computations succeeds only with their results. -/
theorem results_of_combine_eq_ok {γ : Type} {x : Except ε α} {y : Except ε γ} {f : α → γ → β}
    {c : β} (h : (do let a ← x; let b ← y; return f a b) = Except.ok c) :
    ∃ a b, x = .ok a ∧ y = .ok b ∧ f a b = c := by
  obtain ⟨a, hx, h⟩ := bind_eq_ok.mp h
  obtain ⟨b, hy, h⟩ := bind_eq_ok.mp h
  exact ⟨a, b, hx, hy, Except.ok.inj h⟩

/-- What combines the results of two computations succeeds only if both do. -/
theorem exists_of_combine_eq_ok {x y : Except ε α} {f : α → α → β} {c : β}
    (h : (do let a ← x; let b ← y; return f a b) = Except.ok c) :
    (∃ a, x = .ok a) ∧ ∃ b, y = .ok b := by
  obtain ⟨a, b, hx, hy, _⟩ := results_of_combine_eq_ok h
  exact ⟨⟨a, hx⟩, b, hy⟩

/-- What combines the results of two computations fails only if one of them does. -/
theorem combine_eq_error {x y : Except ε α} {f : α → α → β} {e : ε}
    (h : (do let a ← x; let b ← y; return f a b) = Except.error e) : x = .error e ∨ y = .error e := by
  rcases bind_eq_error.mp h with hx | ⟨a, _, h⟩
  · exact .inl hx
  · rcases bind_eq_error.mp h with hy | ⟨b, _, h⟩
    · exact .inr hy
    · cases h

/-- A computation for each item of a list has the list of their results. -/
theorem mapM_eq_ok {f : α → Except ε β} : ∀ {xs : List α} {ys : List β},
    xs.mapM f = .ok ys ↔ List.Forall₂ (fun x y => f x = .ok y) xs ys
  | [], ys => by
      rw [List.forall₂_nil_left_iff, List.mapM_nil]
      exact ⟨fun h => by cases h; rfl, fun h => by rw [h]; rfl⟩
  | x :: xs, ys => by
      rw [List.forall₂_cons_left_iff, List.mapM_cons]
      constructor
      · intro h
        obtain ⟨y, rest, hy, hrest, rfl⟩ := results_of_combine_eq_ok h
        exact ⟨y, rest, hy, mapM_eq_ok.mp hrest, rfl⟩
      · rintro ⟨y, rest, hy, hrest, rfl⟩
        exact combine_eq_ok hy (mapM_eq_ok.mpr hrest)

/-- Every result is that of an item. -/
theorem exists_of_mem_mapM {f : α → Except ε β} {xs : List α} {ys : List β}
    (h : xs.mapM f = .ok ys) {y : β} (hy : y ∈ ys) : ∃ x ∈ xs, f x = .ok y := by
  have hall := mapM_eq_ok.mp h
  clear h
  induction hall with
  | nil => nomatch hy
  | @cons x z xs ys hx _ ih =>
      rcases List.mem_cons.mp hy with rfl | hy
      · exact ⟨x, List.mem_cons_self, hx⟩
      · obtain ⟨w, hw, hf⟩ := ih hy
        exact ⟨w, List.mem_cons_of_mem _ hw, hf⟩

/-- A computation for each item of a list succeeds if it does at every item. -/
theorem exists_mapM_eq_ok {f : α → Except ε β} : ∀ {xs : List α}, (∀ x ∈ xs, ∃ y, f x = .ok y) →
    ∃ ys, xs.mapM f = .ok ys
  | [], _ => ⟨[], mapM_eq_ok.mpr .nil⟩
  | x :: rest, h => by
      obtain ⟨⟨y, hy⟩, hrest⟩ := List.forall_mem_cons.mp h
      obtain ⟨ys, hys⟩ := exists_mapM_eq_ok hrest
      exact ⟨y :: ys, mapM_eq_ok.mpr (.cons hy (mapM_eq_ok.mp hys))⟩

/-- A computation for each item of a list fails only if it does at an item. -/
theorem exists_of_mapM_eq_error {f : α → Except ε β} {e : ε} : ∀ {xs : List α},
    xs.mapM f = .error e → ∃ x ∈ xs, f x = .error e
  | [], h => nomatch h
  | x :: rest, h => by
      rw [List.mapM_cons] at h
      rcases bind_eq_error.mp h with h | ⟨y, _, h⟩
      · exact ⟨x, List.mem_cons_self, h⟩
      · rcases bind_eq_error.mp h with h | ⟨ys, _, h⟩
        · obtain ⟨z, hz, hf⟩ := exists_of_mapM_eq_error h
          exact ⟨z, List.mem_cons_of_mem _ hz, hf⟩
        · cases h

/-- A symbolic result is not changed inside of a computation about models. -/
theorem Dae.liftSymbolic_eq_ok {x : Except Symbolic.SymbolicError α} {a : α} :
    Dae.liftSymbolic x = .ok a ↔ x = .ok a := by
  cases x with
  | error e => exact ⟨nofun, nofun⟩
  | ok b => exact ⟨fun h => by cases h; rfl, fun h => by cases h; rfl⟩

/-- A symbolic error is marked as one inside of a computation about models. -/
theorem Dae.liftSymbolic_eq_error {x : Except Symbolic.SymbolicError α} {err : DaeError} :
    Dae.liftSymbolic x = .error err ↔ ∃ e, x = .error e ∧ err = .symbolic e := by
  cases x with
  | error e =>
      constructor
      · intro h
        cases h
        exact ⟨e, rfl, rfl⟩
      · rintro ⟨_, h, rfl⟩
        cases h
        rfl
  | ok a => exact ⟨nofun, fun ⟨_, h, _⟩ => nomatch h⟩

end FlatModel
