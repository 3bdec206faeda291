import Mathlib.Data.List.Forall2
import FlatModel.Emission.Document
import FlatModel.Emission.Fragment
import FlatModel.Proofs.Numbering

/-!
# Direct translation

The text of every node by recursion over the tree, without numbers and without a table.

* `Expression.translation`, `Equation.translation` — the text of an expression and of an equation.
* `Expression.slots`, …, `SourceUnit.slots` — the texts of all nodes under a node and of the node
  itself, in post-order; classes and units have no text.
* `Expression.number_snd`, …, `ClassDef.number_snd` — numbering takes as many numbers as there are
  slots.
* `Shows` — a table that has the texts of some slots from a certain number on.
* `Expression.shows_id`, `Symbol.shows_thread`, `Equation.shows_numberAll` — in such a table every
  numbered node is found with its text.
-/

namespace FlatModel

open Emission

/-! ## Texts -/

mutual

/-- The text of an expression. -/
def Expression.translation : Expression → String
  | .literal _ value => value.text
  | .reference _ name => Identifier.sanitize name
  | .operation _ operator operands => renderOperation operator (Expression.translations operands)

/-- The texts of expressions. -/
def Expression.translations : List Expression → List String
  | [] => []
  | e :: rest => e.translation :: Expression.translations rest

end

/-- The text of an equation. -/
def Equation.translation (e : Equation) : String :=
  renderEquation e.left.translation e.right.translation

mutual

/-- The text of an expression does not depend on numbers. -/
theorem Expression.translation_erase : ∀ e : Expression, e.erase.translation = e.translation
  | .literal _ _ => rfl
  | .reference _ _ => rfl
  | .operation _ _ operands => by
      rw [erase, translation, translation, Expression.translations_eraseAll operands]

/-- The texts of expressions do not depend on numbers. -/
theorem Expression.translations_eraseAll : ∀ es : List Expression,
    translations (eraseAll es) = translations es
  | [] => rfl
  | e :: rest => by
      rw [eraseAll, translations, translations, e.translation_erase,
        Expression.translations_eraseAll rest]

end

/-- The text of an equation does not depend on numbers. -/
theorem Equation.translation_erase (e : Equation) : e.erase.translation = e.translation := by
  rw [erase, translation, translation, Expression.translation_erase, Expression.translation_erase]

/-- The text of a numbered expression. -/
theorem Expression.translation_number (e : Expression) (n : Nat) :
    (e.number n).1.translation = e.translation := by
  rw [← translation_erase, erase_number, translation_erase]

/-- The texts of numbered expressions. -/
theorem Expression.translations_numberAll (es : List Expression) (n : Nat) :
    translations (numberAll es n).1 = translations es := by
  rw [← translations_eraseAll, eraseAll_numberAll, translations_eraseAll]

/-- The text of a numbered equation. -/
theorem Equation.translation_number (e : Equation) (n : Nat) :
    (e.number n).1.translation = e.translation := by
  rw [← translation_erase, erase_number, translation_erase]

/-! ## Slots -/

mutual

/-- The texts of the nodes of an expression in post-order. -/
def Expression.slots : Expression → List (Option String)
  | .literal _ value => [some value.text]
  | .reference _ name => [some (Identifier.sanitize name)]
  | .operation _ operator operands => Expression.slotsAll operands ++
      [some (renderOperation operator (Expression.translations operands))]

/-- The texts of the nodes of expressions in post-order. -/
def Expression.slotsAll : List Expression → List (Option String)
  | [] => []
  | e :: rest => e.slots ++ Expression.slotsAll rest

end

/-- The expressions of a symbol, the value before the start value. -/
def Symbol.expressions (s : Symbol) : List Expression := s.value.toList ++ s.start.toList

/-- The texts of the nodes of a symbol in post-order. -/
def Symbol.slots (s : Symbol) : List (Option String) :=
  Expression.slotsAll s.expressions ++ [some (Identifier.sanitize s.name)]

/-- The texts of the nodes of an equation in post-order. -/
def Equation.slots (e : Equation) : List (Option String) :=
  Expression.slotsAll [e.left, e.right] ++ [some e.translation]

/-- The texts of the nodes of a class in post-order. -/
def ClassDef.slots (c : ClassDef) : List (Option String) :=
  c.symbols.values.flatMap Symbol.slots ++ c.equations.flatMap Equation.slots ++ [none]

/-- The texts of the nodes of the classes of a unit in post-order. -/
def SourceUnit.slots (u : SourceUnit) : List (Option String) :=
  u.classes.values.flatMap ClassDef.slots

/-- The text of an expression is the last one. -/
theorem Expression.exists_slots_eq (e : Expression) :
    ∃ below, e.slots = below ++ [some e.translation] := by
  cases e with
  | literal _ value => exact ⟨[], rfl⟩
  | reference _ name => exact ⟨[], rfl⟩
  | operation _ operator operands => exact ⟨slotsAll operands, rfl⟩

/-! ## Numbers -/

mutual

/-- An expression takes as many numbers as it has slots. -/
theorem Expression.number_snd : ∀ (e : Expression) (n : Nat), (e.number n).2 = n + e.slots.length
  | .literal _ _, _ => rfl
  | .reference _ _, _ => rfl
  | .operation _ _ operands, n => by
      rw [number, slots, List.length_append, List.length_singleton,
        Expression.numberAll_snd operands n]
      rfl

/-- Expressions take as many numbers as they have slots. -/
theorem Expression.numberAll_snd : ∀ (es : List Expression) (n : Nat),
    (numberAll es n).2 = n + (slotsAll es).length
  | [], _ => rfl
  | e :: rest, n => by
      rw [numberAll, slotsAll, List.length_append, ← Nat.add_assoc, ← e.number_snd n]
      exact Expression.numberAll_snd rest _

end

/-- The number of an expression is the last one it takes. -/
theorem Expression.number_id (e : Expression) (n : Nat) :
    (e.number n).1.id + 1 = (e.number n).2 := by
  cases e <;> rfl

/-- Expressions one after the other. -/
theorem Expression.numberAll_append : ∀ (es fs : List Expression) (n : Nat),
    numberAll (es ++ fs) n =
      ((numberAll es n).1 ++ (numberAll fs (numberAll es n).2).1,
        (numberAll fs (numberAll es n).2).2)
  | [], _, _ => rfl
  | e :: rest, fs, n => by
      rw [List.cons_append, numberAll, numberAll, numberAll_append rest fs]
      rfl

/-- Optional expressions are numbered like the list of them. -/
theorem Expression.numberAll_toList (e : Option Expression) (n : Nat) :
    numberAll e.toList n = ((numberOption e n).1.toList, (numberOption e n).2) := by
  cases e <;> rfl

/-- The expressions of a numbered symbol are numbered one after the other. -/
theorem Symbol.expressions_number (s : Symbol) (n : Nat) :
    Expression.numberAll s.expressions n = ((s.number n).1.expressions, (s.number n).1.id) := by
  rw [expressions, Expression.numberAll_append, Expression.numberAll_toList,
    Expression.numberAll_toList]
  rfl

/-- The number of a symbol comes after those of its expressions. -/
theorem Symbol.number_id (s : Symbol) (n : Nat) :
    (s.number n).1.id = n + (Expression.slotsAll s.expressions).length := by
  rw [← Expression.numberAll_snd, expressions_number]

/-- A symbol takes as many numbers as it has slots. -/
theorem Symbol.number_snd (s : Symbol) (n : Nat) : (s.number n).2 = n + s.slots.length := by
  show (s.number n).1.id + 1 = _
  rw [number_id, slots, List.length_append, List.length_singleton, Nat.add_assoc]

/-- Both sides of a numbered equation are numbered one after the other. -/
theorem Equation.sides_number (e : Equation) (n : Nat) :
    Expression.numberAll [e.left, e.right] n =
      ([(e.number n).1.left, (e.number n).1.right], (e.number n).1.id) := rfl

/-- The number of an equation comes after those of its sides. -/
theorem Equation.number_id (e : Equation) (n : Nat) :
    (e.number n).1.id = n + (Expression.slotsAll [e.left, e.right]).length := by
  rw [← Expression.numberAll_snd, sides_number]

/-- An equation takes as many numbers as it has slots. -/
theorem Equation.number_snd (e : Equation) (n : Nat) : (e.number n).2 = n + e.slots.length := by
  show (e.number n).1.id + 1 = _
  rw [number_id, slots, List.length_append, List.length_singleton, Nat.add_assoc]

/-- Equations take as many numbers as they have slots. -/
theorem Equation.numberAll_snd : ∀ (es : List Equation) (n : Nat),
    (numberAll es n).2 = n + (es.flatMap slots).length
  | [], _ => rfl
  | e :: rest, n => by
      rw [numberAll, List.flatMap_cons, List.length_append, ← Nat.add_assoc, ← e.number_snd n]
      exact numberAll_snd rest _

/-- Symbols take as many numbers as they have slots. -/
theorem Symbol.thread_snd (entries : List (String × Symbol)) (n : Nat) :
    (OrderedMap.threadEntries Symbol.number entries n).2 =
      n + ((entries.map Prod.snd).flatMap slots).length :=
  OrderedMap.threadEntries_snd number_snd entries n

/-- A class takes as many numbers as it has slots, the last one itself. -/
theorem ClassDef.number_snd (c : ClassDef) (n : Nat) :
    (c.number n).1.id + 1 = (c.number n).2 ∧ (c.number n).2 = n + c.slots.length := by
  refine ⟨rfl, ?_⟩
  show (Equation.numberAll c.equations (c.symbols.thread Symbol.number n).2).2 + 1 = _
  rw [Equation.numberAll_snd, slots, List.length_append, List.length_append, List.length_singleton,
    ← Nat.add_assoc, ← Nat.add_assoc]
  exact congrArg (fun k => k + (c.equations.flatMap Equation.slots).length + 1)
    (Symbol.thread_snd c.symbols.entries n)

/-- A class takes no smaller number than the first free one. -/
theorem ClassDef.le_number_id (c : ClassDef) (n : Nat) : n ≤ (c.number n).1.id := by
  obtain ⟨hlast, hid⟩ := c.number_snd n
  have hpos : 0 < c.slots.length :=
    List.length_pos_iff.mpr (List.append_ne_nil_of_right_ne_nil _ (List.cons_ne_nil _ _))
  omega

/-! ## Tables that show slots -/

/-- From the number `n` on, `g` gives what is in the slots. -/
def Shows (g : Nat → Option String) (n : Nat) (slots : List (Option String)) : Prop :=
  ∀ i x, slots[i]? = some x → g (n + i) = x

section shows

variable {g : Nat → Option String} {n : Nat}

/-- Slots one after the other. -/
theorem shows_append {s s' : List (Option String)} :
    Shows g n (s ++ s') ↔ Shows g n s ∧ Shows g (n + s.length) s' := by
  constructor
  · intro h
    constructor
    · intro i x hx
      obtain ⟨hi, _⟩ := List.getElem?_eq_some_iff.mp hx
      refine h i x ?_
      rw [List.getElem?_append_left hi]
      exact hx
    · intro i x hx
      rw [Nat.add_assoc]
      refine h (s.length + i) x ?_
      rw [List.getElem?_append_right (Nat.le_add_right _ _), Nat.add_sub_cancel_left]
      exact hx
  · rintro ⟨h, h'⟩ i x hx
    rcases Nat.lt_or_ge i s.length with hi | hi
    · rw [List.getElem?_append_left hi] at hx
      exact h i x hx
    · rw [List.getElem?_append_right hi] at hx
      have hshift : n + i = n + s.length + (i - s.length) := by omega
      rw [hshift]
      exact h' _ x hx

/-- A single slot. -/
theorem shows_singleton {x : Option String} : Shows g n [x] ↔ g n = x := by
  constructor
  · exact fun h => h 0 x rfl
  · intro h i y hy
    cases i with
    | zero =>
        cases hy
        exact h
    | succ i => cases hy

/-- A numbered expression is found with its text. -/
theorem Expression.shows_id {e : Expression} (h : Shows g n e.slots) :
    g (e.number n).1.id = some (e.number n).1.translation := by
  obtain ⟨below, hbelow⟩ := e.exists_slots_eq
  have hsnd := e.number_snd n
  rw [← e.number_id n, hbelow, List.length_append, List.length_singleton] at hsnd
  have hid : (e.number n).1.id = n + below.length := by omega
  rw [hbelow] at h
  rw [hid, translation_number]
  exact shows_singleton.mp (shows_append.mp h).2

/-- Numbered expressions are found with their texts. -/
theorem Expression.shows_ids : ∀ {es : List Expression} {n : Nat}, Shows g n (slotsAll es) →
    ∀ e ∈ (numberAll es n).1, g e.id = some e.translation
  | [], _, _, _, he => nomatch he
  | e :: rest, n, h, f, hf => by
      obtain ⟨hhead, htail⟩ := shows_append.mp h
      rcases List.mem_cons.mp hf with rfl | hf
      · exact shows_id hhead
      · rw [← e.number_snd n] at htail
        exact Expression.shows_ids htail f hf

/-- The symbol and its expressions are found with their texts. -/
structure Symbol.Shown (g : Nat → Option String) (s : Symbol) : Prop where
  /-- The symbol is found with its identifier. -/
  ident : g s.id = some (Identifier.sanitize s.name)
  /-- The expressions are found with their texts. -/
  expressions : ∀ e ∈ s.expressions, g e.id = some e.translation

/-- A numbered symbol is found. -/
theorem Symbol.shows_number {s : Symbol} (h : Shows g n s.slots) : (s.number n).1.Shown g := by
  obtain ⟨hbelow, hself⟩ := shows_append.mp h
  constructor
  · rw [s.number_id]
    exact shows_singleton.mp hself
  · have hall := Expression.shows_ids hbelow
    rw [s.expressions_number] at hall
    exact hall

/-- Numbered symbols are found. -/
theorem Symbol.shows_thread : ∀ {entries : List (String × Symbol)} {n : Nat},
    Shows g n ((entries.map Prod.snd).flatMap slots) →
      ∀ p ∈ (OrderedMap.threadEntries Symbol.number entries n).1, p.2.Shown g
  | [], _, _, _, hp => nomatch hp
  | (_, s) :: rest, n, h, p, hp => by
      obtain ⟨hhead, htail⟩ := shows_append.mp h
      rcases List.mem_cons.mp hp with rfl | hp
      · exact shows_number hhead
      · rw [← s.number_snd n] at htail
        exact Symbol.shows_thread htail p hp

/-- A numbered equation is found with its text. -/
theorem Equation.shows_number {e : Equation} (h : Shows g n e.slots) :
    g (e.number n).1.id = some (e.number n).1.translation := by
  rw [e.number_id, e.translation_number]
  exact shows_singleton.mp (shows_append.mp h).2

/-- Numbered equations are found with their texts. -/
theorem Equation.shows_numberAll : ∀ {es : List Equation} {n : Nat}, Shows g n (es.flatMap slots) →
    ∀ e ∈ (numberAll es n).1, g e.id = some e.translation
  | [], _, _, _, he => nomatch he
  | e :: rest, n, h, f, hf => by
      obtain ⟨hhead, htail⟩ := shows_append.mp h
      rcases List.mem_cons.mp hf with rfl | hf
      · exact shows_number hhead
      · rw [← e.number_snd n] at htail
        exact Equation.shows_numberAll htail f hf

end shows

end FlatModel
