import FlatModel.Tree.Numbering
import FlatModel.Proofs.OrderedMaps

/-!
# What numbering leaves alone

* `Expression.erase`, …, `SourceUnit.erase` — the same tree with the number zero at every node.
* `Expression.erase_number`, …, `SourceUnit.erase_numbered` — numbering changes nothing but numbers.
* `Expression.number_erase`, …, `SourceUnit.numbered_erase` — and does not look at those that
  stood there before.
-/

namespace FlatModel

/-! ## Trees without numbers -/

mutual

/-- An expression with the number zero at every node. -/
def Expression.erase : Expression → Expression
  | .literal _ value => .literal 0 value
  | .reference _ name => .reference 0 name
  | .operation _ operator operands => .operation 0 operator (Expression.eraseAll operands)

/-- Expressions with the number zero at every node. -/
def Expression.eraseAll : List Expression → List Expression
  | [] => []
  | e :: rest => e.erase :: Expression.eraseAll rest

end

/-- An equation with the number zero at every node. -/
def Equation.erase (e : Equation) : Equation := ⟨e.left.erase, e.right.erase, 0⟩

/-- A symbol with the number zero at every node. -/
def Symbol.erase (s : Symbol) : Symbol :=
  ⟨s.name, s.order, s.roles, s.value.map Expression.erase, s.start.map Expression.erase, 0⟩

/-- A class with the number zero at every node. -/
def ClassDef.erase (c : ClassDef) : ClassDef :=
  ⟨c.name, c.symbols.mapValues Symbol.erase, c.equations.map Equation.erase, 0⟩

/-- A unit with the number zero at every node. -/
def SourceUnit.erase (u : SourceUnit) : SourceUnit := ⟨u.classes.mapValues ClassDef.erase, 0⟩

/-- The name of a symbol is no number. -/
@[simp] theorem Symbol.name_erase (s : Symbol) : s.erase.name = s.name := rfl

/-- The default of a symbol without its numbers. -/
theorem Symbol.default?_erase (s : Symbol) :
    s.erase.default? = s.default?.map Expression.erase := by
  obtain ⟨_, _, _, value, start, _⟩ := s
  cases value <;> rfl

/-! ## Numbering -/

mutual

/-- Numbering an expression changes nothing but numbers. -/
theorem Expression.erase_number : ∀ (e : Expression) (n : Nat), (e.number n).1.erase = e.erase
  | .literal _ _, _ => rfl
  | .reference _ _, _ => rfl
  | .operation _ _ operands, n => by
      rw [number, erase, erase, Expression.eraseAll_numberAll operands n]

/-- Numbering expressions changes nothing but numbers. -/
theorem Expression.eraseAll_numberAll : ∀ (es : List Expression) (n : Nat),
    eraseAll (numberAll es n).1 = eraseAll es
  | [], _ => rfl
  | e :: rest, n => by
      rw [numberAll, eraseAll, eraseAll, Expression.erase_number e n,
        Expression.eraseAll_numberAll rest _]

end

/-- Numbering an optional expression changes nothing but numbers. -/
theorem Expression.erase_numberOption (e : Option Expression) (n : Nat) :
    (numberOption e n).1.map erase = e.map erase := by
  cases e with
  | none => rfl
  | some e => exact congrArg some (e.erase_number n)

/-- Numbering an equation changes nothing but numbers. -/
theorem Equation.erase_number (e : Equation) (n : Nat) : (e.number n).1.erase = e.erase := by
  rw [number, erase, erase, Expression.erase_number, Expression.erase_number]

/-- Numbering equations changes nothing but numbers. -/
theorem Equation.erase_numberAll : ∀ (es : List Equation) (n : Nat),
    (numberAll es n).1.map erase = es.map erase
  | [], _ => rfl
  | e :: rest, n => by
      rw [numberAll, List.map_cons, List.map_cons, e.erase_number n,
        Equation.erase_numberAll rest _]

/-- Numbering a symbol changes nothing but numbers. -/
theorem Symbol.erase_number (s : Symbol) (n : Nat) : (s.number n).1.erase = s.erase := by
  rw [number, erase, erase, Expression.erase_numberOption, Expression.erase_numberOption]

/-- **Numbering a class changes nothing but numbers.** -/
theorem ClassDef.erase_number (c : ClassDef) (n : Nat) : (c.number n).1.erase = c.erase := by
  rw [number, erase, erase, OrderedMap.mapValues_thread Symbol.erase_number,
    Equation.erase_numberAll]

/-- **Numbering a unit changes nothing but numbers.** -/
theorem SourceUnit.erase_numbered (u : SourceUnit) : u.numbered.erase = u.erase := by
  rw [numbered, number, erase, erase, OrderedMap.mapValues_thread ClassDef.erase_number]

/-! ## Numbers from before -/

mutual

/-- Numbering does not look at the numbers of an expression. -/
theorem Expression.number_erase : ∀ (e : Expression) (n : Nat), e.erase.number n = e.number n
  | .literal _ _, _ => rfl
  | .reference _ _, _ => rfl
  | .operation _ _ operands, n => by
      rw [erase, number, number, Expression.numberAll_eraseAll operands n]

/-- Numbering does not look at the numbers of expressions. -/
theorem Expression.numberAll_eraseAll : ∀ (es : List Expression) (n : Nat),
    numberAll (eraseAll es) n = numberAll es n
  | [], _ => rfl
  | e :: rest, n => by
      rw [eraseAll, numberAll, numberAll, Expression.number_erase e n,
        Expression.numberAll_eraseAll rest _]

end

/-- Numbering does not look at the numbers of an optional expression. -/
theorem Expression.numberOption_erase (e : Option Expression) (n : Nat) :
    numberOption (e.map erase) n = numberOption e n := by
  cases e with
  | none => rfl
  | some e => simp only [Option.map_some, numberOption, e.number_erase n]

/-- Numbering does not look at the numbers of an equation. -/
theorem Equation.number_erase (e : Equation) (n : Nat) : e.erase.number n = e.number n := by
  simp only [erase, number, Expression.number_erase]

/-- Numbering does not look at the numbers of equations. -/
theorem Equation.numberAll_erase : ∀ (es : List Equation) (n : Nat),
    numberAll (es.map erase) n = numberAll es n
  | [], _ => rfl
  | e :: rest, n => by
      rw [List.map_cons, numberAll, numberAll, e.number_erase n, Equation.numberAll_erase rest _]

/-- Numbering does not look at the numbers of a symbol. -/
theorem Symbol.number_erase (s : Symbol) (n : Nat) : s.erase.number n = s.number n := by
  simp only [erase, number, Expression.numberOption_erase]

/-- Numbering does not look at the numbers of a class. -/
theorem ClassDef.number_erase (c : ClassDef) (n : Nat) : c.erase.number n = c.number n := by
  simp only [erase, number, OrderedMap.thread_mapValues Symbol.number_erase,
    Equation.numberAll_erase]

/-- **Numbering does not look at the numbers of a unit.** -/
theorem SourceUnit.numbered_erase (u : SourceUnit) : u.erase.numbered = u.numbered := by
  simp only [erase, numbered, number, OrderedMap.thread_mapValues ClassDef.number_erase]

end FlatModel
