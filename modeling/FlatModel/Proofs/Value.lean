import Mathlib.Algebra.Algebra.Basic
import Mathlib.Algebra.GroupWithZero.Units.Basic
import Mathlib.Data.Fin.Tuple.Basic
import Mathlib.Data.List.Forall2
import Mathlib.Data.List.OfFn
import FlatModel.Proofs.ExactNumber
import FlatModel.Proofs.Leaves

/-!
# The value of an expression in exact arithmetic

* `Atom` — a symbol or a time derivative of some order of a symbol.  To evaluation they are
  independent quantities.
* `Reading` — how powers and calls are read: as fixed partial functions that agree with the folding
  of numbers.  Powers have three laws, wherever they are defined.
* `quotient` — division, defined where the divisor is invertible.
* `Expr.value` — the value at a valuation of the atoms, if all divisors are invertible and all
  powers, calls and atoms are defined.  A time derivative of anything but an atom has no value.

Values are taken in a commutative ring above the rationals: in the rationals themselves, or in the
dual numbers, where an expression carries its derivative along.
-/

namespace FlatModel.Symbolic

/-! ## Atoms -/

/-- A symbol, differentiated by time some number of times. -/
structure Atom where
  /-- The name of the symbol. -/
  name : String
  /-- How often it is differentiated. -/
  order : ℕ
  deriving DecidableEq, Repr

/-- The time derivative of an atom. -/
def Atom.der (α : Atom) : Atom := ⟨α.name, α.order + 1⟩

/-- The atom an expression is: a symbol, or a time derivative of an atom. -/
def Expr.atom? {K : Type} : Expr K → Option Atom
  | .sym n => some ⟨n, 0⟩
  | .der a => a.atom?.map Atom.der
  | _ => none

/-- The symbol `n` under `k` time derivatives. -/
def Expr.iteratedDer {K : Type} (n : String) : ℕ → Expr K
  | 0 => .sym n
  | k + 1 => .der (iteratedDer n k)

/-- The expression of an atom. -/
def Atom.expr {K : Type} (α : Atom) : Expr K := Expr.iteratedDer α.name α.order

/-- The atom of an atom's expression is the atom. -/
@[simp] theorem Atom.atom?_expr {K : Type} (α : Atom) : (α.expr : Expr K).atom? = some α := by
  obtain ⟨n, k⟩ := α
  induction k with
  | zero => rfl
  | succ k ih => exact congrArg (Option.map Atom.der) ih

/-- An expression that is an atom is the expression of that atom. -/
theorem Expr.eq_expr_of_atom? {K : Type} : ∀ {e : Expr K} {α : Atom}, e.atom? = some α → e = α.expr
  | .sym n, α, h => by
      cases Option.some_inj.mp h
      rfl
  | .der a, α, h => by
      obtain ⟨β, hβ, rfl⟩ := Option.map_eq_some_iff.mp h
      exact congrArg Expr.der (eq_expr_of_atom? hβ)
  | .num _, _, h | .neg _, _, h | .add _ _, _, h | .sub _ _, _, h | .mul _ _, _, h
  | .div _ _, _, h | .pow _ _, _, h | .call _ _, _, h => nomatch h

namespace Expr

variable {K : Type} [Scalar K]

/-- An expression that counts as equal to an atom is that atom. -/
theorem atom?_of_beq : ∀ {a b : Expr K} {α : Atom}, a.beq b = true → a.atom? = some α →
    b.atom? = some α
  | .sym m, .sym n, α, h, hα => by
      rw [beq, beq_iff_eq] at h
      exact h ▸ hα
  | .der a, .der b, α, h, hα => by
      rw [beq] at h
      obtain ⟨β, hβ, rfl⟩ := Option.map_eq_some_iff.mp hα
      exact Option.map_eq_some_iff.mpr ⟨β, atom?_of_beq h hβ, rfl⟩

/-- The expressions of two atoms count as equal only if the atoms are. -/
theorem expr_beq_expr {α β : Atom} : ((α.expr : Expr K) == β.expr) = true ↔ α = β := by
  constructor
  · intro h
    have hβ := atom?_of_beq h (Atom.atom?_expr α)
    rw [Atom.atom?_expr, Option.some_inj] at hβ
    exact hβ.symm
  · rintro rfl
    obtain ⟨n, k⟩ := α
    induction k with
    | zero => exact beq_self_eq_true n
    | succ k ih => exact ih

/-- No atom is an operator. -/
theorem expr_beq_of_atom?_eq_none {e : Expr K} (he : e.atom? = none) (α : Atom) :
    (α.expr == e) = false := by
  by_contra h
  rw [Bool.not_eq_false] at h
  have hα := atom?_of_beq h (Atom.atom?_expr α)
  rw [he] at hα
  cases hα

end Expr

/-- What is known of the quantities: a value for each atom, or none. -/
abbrev Valuation (A : Type) := Atom → Option A

/-! ## Vectors -/

/-- What stands in relation to a vector, place by place, is a vector. -/
theorem forall₂_ofFn_left {α β : Type} {p : α → β → Prop} : ∀ {n : ℕ} {f : Fin n → α} {ys : List β},
    List.Forall₂ p (List.ofFn f) ys ↔ ∃ g : Fin n → β, ys = List.ofFn g ∧ ∀ i, p (f i) (g i)
  | 0, f, ys => by
      rw [List.ofFn_zero, List.forall₂_nil_left_iff]
      exact ⟨fun h => ⟨Fin.elim0, h, fun i => i.elim0⟩, fun ⟨_, h, _⟩ => h⟩
  | n + 1, f, ys => by
      rw [List.ofFn_succ, List.forall₂_cons_left_iff]
      constructor
      · rintro ⟨y, rest, hy, hrest, rfl⟩
        obtain ⟨g, rfl, hg⟩ := forall₂_ofFn_left.mp hrest
        refine ⟨Fin.cons y g, ?_, Fin.cases hy hg⟩
        rw [List.ofFn_succ]
        rfl
      · rintro ⟨g, rfl, hg⟩
        exact ⟨g 0, List.ofFn fun i => g i.succ, hg 0,
          forall₂_ofFn_left.mpr ⟨_, rfl, fun i => hg i.succ⟩, List.ofFn_succ⟩

/-- A list is the vector of its items. -/
theorem exists_eq_ofFn {α : Type} {n : ℕ} {xs : List α} (h : xs.length = n) :
    ∃ f : Fin n → α, xs = List.ofFn f := by
  subst h
  exact ⟨fun i => xs[i], List.ofFn_getElem.symm⟩

/-! ## Division -/

section quotient

variable {A : Type}

open Classical in
/-- The quotient by an invertible divisor; there is no other. -/
noncomputable def quotient [CommRing A] (x y : A) : Option A :=
  if IsUnit y then some (x * Ring.inverse y) else none

/-- The quotient is what gives the dividend when multiplied by the divisor. -/
theorem quotient_eq_some_iff [CommRing A] {x y z : A} :
    quotient x y = some z ↔ IsUnit y ∧ z * y = x := by
  unfold quotient
  constructor
  · intro h
    split at h
    · rename_i hy
      cases h
      exact ⟨hy, Ring.inverse_mul_cancel_right _ _ hy⟩
    · cases h
  · rintro ⟨hy, rfl⟩
    rw [if_pos hy, Ring.mul_inverse_cancel_right _ _ hy]

/-- In a field all divisors but zero are invertible. -/
theorem quotient_of_ne_zero [Field A] {x y : A} (hy : y ≠ 0) : quotient x y = some (x / y) :=
  quotient_eq_some_iff.mpr ⟨isUnit_iff_ne_zero.mpr hy, div_mul_cancel₀ x hy⟩

/-- In a field only division by zero is undefined. -/
theorem quotient_eq_some_iff_div [Field A] {x y z : A} :
    quotient x y = some z ↔ y ≠ 0 ∧ z = x / y := by
  rw [quotient_eq_some_iff, isUnit_iff_ne_zero]
  exact and_congr_right fun hy => (eq_div_iff hy).symm

end quotient

/-! ## Readings -/

open ExactScalar (toRat?)

/-- The laws of powers that simplification uses, wherever powers are defined. -/
structure Functions.PowerLaws {A : Type} [CommRing A] (F : Functions A) : Prop where
  /-- A power with exponent zero is one. -/
  pow_zero : ∀ {x z : A}, F.pow x 0 = some z → z = 1
  /-- A power with exponent one is its base. -/
  pow_one : ∀ {x z : A}, F.pow x 1 = some z → z = x
  /-- A power of one is one. -/
  one_pow : ∀ {y z : A}, F.pow 1 y = some z → z = 1

/-- Powers and calls as partial functions that agree with the folding of numbers of type `K`. -/
structure Reading (K A : Type) [ExactScalar K] [CommRing A] [Algebra ℚ A] extends Functions A where
  /-- Powers have the laws that simplification uses. -/
  powerLaws : toFunctions.PowerLaws
  /-- A power of numbers that folds is what it folds to. -/
  pow_folds : ∀ {x y : K} {a b c : ℚ}, toRat? x = some a → toRat? y = some b →
    toRat? (Scalar.pow x y) = some c →
      pow (algebraMap ℚ A a) (algebraMap ℚ A b) = some (algebraMap ℚ A c)
  /-- A call of numbers that folds is what it folds to. -/
  call_folds : ∀ {f : String} {xs : List K} {as : List ℚ} {z : K} {c : ℚ},
    List.Forall₂ (fun x a => toRat? x = some a) xs as → Scalar.call? f xs = some z →
      toRat? z = some c → call f (as.map (algebraMap ℚ A)) = some (algebraMap ℚ A c)

/-- Powers with natural exponents are the usual ones. -/
def Functions.NaturalPowers {A : Type} [CommRing A] (F : Functions A) : Prop :=
  ∀ (x : A) (n : ℕ), F.pow x n = some (x ^ n)

/-- Squares are the usual ones. -/
def Functions.UsualSquares {A : Type} [CommRing A] (F : Functions A) : Prop :=
  ∀ x : A, F.pow x 2 = some (x ^ 2)

/-- Squares are powers with a natural exponent. -/
theorem Functions.NaturalPowers.usualSquares {A : Type} [CommRing A] {F : Functions A}
    (hpow : F.NaturalPowers) : F.UsualSquares := fun x => by
  have h := hpow x 2
  rwa [Nat.cast_ofNat] at h

/-- Rationals fold by the very functions that read them. -/
def Exact.reading (F : Functions ℚ) (powerLaws : F.PowerLaws) : Reading (Exact F) ℚ where
  toFunctions := F
  powerLaws := powerLaws
  pow_folds {x y a b c} hx hy hc := by
    have hc : (x.toRat?.bind fun a => y.toRat?.bind fun b => F.pow a b) = some c := hc
    rw [show x.toRat? = some a from hx, show y.toRat? = some b from hy] at hc
    exact hc
  call_folds {f xs as z c} hxs hz hc := by
    have hmap : xs.mapM Exact.toRat? = some as := by
      clear hz
      induction hxs with
      | nil => rfl
      | @cons x a xs as hx _ ih =>
          rw [List.mapM_cons, show x.toRat? = some a from hx, ih]
          rfl
    obtain ⟨q, hq, rfl⟩ := Option.map_eq_some_iff.mp hz
    rw [hmap] at hq
    cases hc
    simpa using hq

namespace Functions

/-- Powers with a natural exponent, and all powers of one. -/
def standardPow (x y : ℚ) : Option ℚ :=
  if y.den = 1 ∧ 0 ≤ y.num then some (x ^ y.num.toNat) else if x = 1 then some 1 else none

/-- The sign of a rational. -/
def signOf (x : ℚ) : ℚ := if x < 0 then -1 else if 0 < x then 1 else 0

/-- The functions that take every rational to a rational. -/
def standardCall (name : String) : List ℚ → Option ℚ
  | [x] => ([("abs", fun x => |x|), ("sign", signOf)].lookup name).map fun f => f x
  | [x, y] => ([("min", min), ("max", max)].lookup name).map fun f => f x y
  | _ => none

/-- Powers and calls that have rational values. -/
def standard : Functions ℚ := ⟨standardPow, standardCall⟩

theorem standard_naturalPowers : standard.NaturalPowers := by
  intro x n
  show standardPow x n = _
  unfold standardPow
  rw [if_pos ⟨Rat.den_natCast n, by simp⟩]
  simp

theorem standard_powerLaws : standard.PowerLaws where
  pow_zero {x z} h := by
    have hpow := standard_naturalPowers x 0
    rw [Nat.cast_zero, h, pow_zero] at hpow
    exact Option.some_inj.mp hpow
  pow_one {x z} h := by
    have hpow := standard_naturalPowers x 1
    rw [Nat.cast_one, h, pow_one] at hpow
    exact Option.some_inj.mp hpow
  one_pow {y z} h := by
    have hpow : standardPow 1 y = some 1 := by
      unfold standardPow
      rw [if_pos rfl, one_pow, ite_self]
    exact Option.some_inj.mp (h.symm.trans hpow)

end Functions

/-- The reading of rationals by their own powers and calls. -/
def Reading.standard : Reading (Exact Functions.standard) ℚ :=
  Exact.reading .standard Functions.standard_powerLaws

/-! ## Values -/

namespace Expr

variable {K A : Type} [ExactScalar K] [CommRing A] [Algebra ℚ A]

mutual

/-- The value of an expression at a valuation of its atoms. -/
noncomputable def value (F : Functions A) (ρ : Valuation A) : Expr K → Option A
  | .num x => (toRat? x).map (algebraMap ℚ A)
  | .sym n => ρ ⟨n, 0⟩
  | .der a => a.atom?.bind fun α => ρ α.der
  | .neg a => do
      let x ← a.value F ρ
      return -x
  | .add a b => do
      let x ← a.value F ρ
      let y ← b.value F ρ
      return x + y
  | .sub a b => do
      let x ← a.value F ρ
      let y ← b.value F ρ
      return x - y
  | .mul a b => do
      let x ← a.value F ρ
      let y ← b.value F ρ
      return x * y
  | .div a b => do
      let x ← a.value F ρ
      let y ← b.value F ρ
      quotient x y
  | .pow a b => do
      let x ← a.value F ρ
      let y ← b.value F ρ
      F.pow x y
  | .call f args => do
      let xs ← valueAll F ρ args
      F.call f xs

/-- The values of the expressions of a list. -/
noncomputable def valueAll (F : Functions A) (ρ : Valuation A) : List (Expr K) → Option (List A)
  | [] => some []
  | a :: rest => do
      let x ← a.value F ρ
      let xs ← valueAll F ρ rest
      return x :: xs

end

variable {F : Functions A} {ρ : Valuation A} {a b : Expr K} {x y v : A}

/-! ### When an expression has a value -/

section

attribute [local simp] value valueAll

theorem value_num_eq_some {n : K} :
    (num n).value F ρ = some v ↔ ∃ q, toRat? n = some q ∧ algebraMap ℚ A q = v := by
  simp

theorem value_neg_eq_some : (neg a).value F ρ = some v ↔ ∃ x, a.value F ρ = some x ∧ -x = v := by
  simp [Option.bind_eq_some_iff]

theorem value_add_eq_some :
    (add a b).value F ρ = some v ↔
      ∃ x y, a.value F ρ = some x ∧ b.value F ρ = some y ∧ x + y = v := by
  simp [Option.bind_eq_some_iff]

theorem value_sub_eq_some :
    (sub a b).value F ρ = some v ↔
      ∃ x y, a.value F ρ = some x ∧ b.value F ρ = some y ∧ x - y = v := by
  simp [Option.bind_eq_some_iff]

theorem value_mul_eq_some :
    (mul a b).value F ρ = some v ↔
      ∃ x y, a.value F ρ = some x ∧ b.value F ρ = some y ∧ x * y = v := by
  simp [Option.bind_eq_some_iff]

theorem value_div_eq_some :
    (div a b).value F ρ = some v ↔
      ∃ x y, a.value F ρ = some x ∧ b.value F ρ = some y ∧ IsUnit y ∧ v * y = x := by
  simp [Option.bind_eq_some_iff, quotient_eq_some_iff]

theorem value_pow_eq_some :
    (pow a b).value F ρ = some v ↔
      ∃ x y, a.value F ρ = some x ∧ b.value F ρ = some y ∧ F.pow x y = some v := by
  simp [Option.bind_eq_some_iff]

theorem value_call_eq_some {f : String} {args : List (Expr K)} :
    (call f args).value F ρ = some v ↔
      ∃ xs, valueAll F ρ args = some xs ∧ F.call f xs = some v := by
  simp [Option.bind_eq_some_iff]

theorem valueAll_cons_eq_some {rest : List (Expr K)} {xs : List A} :
    valueAll F ρ (a :: rest) = some xs ↔
      ∃ x ys, a.value F ρ = some x ∧ valueAll F ρ rest = some ys ∧ x :: ys = xs := by
  simp [Option.bind_eq_some_iff]

end

/-- A list has values if each of its expressions has. -/
theorem valueAll_eq_some : ∀ {s : List (Expr K)} {xs : List A},
    valueAll F ρ s = some xs ↔ List.Forall₂ (fun e x => e.value F ρ = some x) s xs
  | [], xs => by
      rw [valueAll, List.forall₂_nil_left_iff, Option.some_inj, eq_comm]
  | a :: rest, xs => by
      rw [valueAll_cons_eq_some, List.forall₂_cons_left_iff]
      constructor
      · rintro ⟨x, ys, hx, hys, rfl⟩
        exact ⟨x, ys, hx, valueAll_eq_some.mp hys, rfl⟩
      · rintro ⟨x, ys, hx, hys, rfl⟩
        exact ⟨x, ys, hx, valueAll_eq_some.mpr hys, rfl⟩

/-- There are as many values as expressions. -/
theorem length_of_valueAll {s : List (Expr K)} {xs : List A} (h : valueAll F ρ s = some xs) :
    xs.length = s.length :=
  (valueAll_eq_some.mp h).length_eq.symm

/-- A vector of expressions has the vector of their values. -/
theorem valueAll_ofFn {n : ℕ} {f : Fin n → Expr K} {x : Fin n → A}
    (h : ∀ i, (f i).value F ρ = some (x i)) : valueAll F ρ (List.ofFn f) = some (List.ofFn x) :=
  valueAll_eq_some.mpr (forall₂_ofFn_left.mpr ⟨x, rfl, h⟩)

/-- A list of expressions has the vector of their values. -/
theorem valueAll_get {s : List (Expr K)} {x : Fin s.length → A}
    (h : ∀ i, (s.get i).value F ρ = some (x i)) : valueAll F ρ s = some (List.ofFn x) := by
  have hvalues := valueAll_ofFn h
  rwa [List.ofFn_get] at hvalues

/-- The values of a vector of expressions. -/
theorem value_of_valueAll_ofFn {n : ℕ} {f : Fin n → Expr K} {x : Fin n → A}
    (h : valueAll F ρ (List.ofFn f) = some (List.ofFn x)) (i : Fin n) :
    (f i).value F ρ = some (x i) := by
  obtain ⟨y, hy, hvalue⟩ := forall₂_ofFn_left.mp (valueAll_eq_some.mp h)
  rw [List.ofFn_inj.mp hy]
  exact hvalue i

/-- The value of an atom is that of the valuation. -/
@[simp] theorem value_atom (α : Atom) : (α.expr : Expr K).value F ρ = ρ α := by
  obtain ⟨n, k⟩ := α
  cases k with
  | zero => rfl
  | succ k =>
      show ((⟨n, k⟩ : Atom).expr : Expr K).atom?.bind (fun α => ρ α.der) = _
      rw [Atom.atom?_expr]
      rfl

/-! ### Values of the parts give the value of the whole -/

theorem value_neg (ha : a.value F ρ = some x) : (neg a).value F ρ = some (-x) :=
  value_neg_eq_some.mpr ⟨x, ha, rfl⟩

theorem value_add (ha : a.value F ρ = some x) (hb : b.value F ρ = some y) :
    (add a b).value F ρ = some (x + y) :=
  value_add_eq_some.mpr ⟨x, y, ha, hb, rfl⟩

theorem value_sub (ha : a.value F ρ = some x) (hb : b.value F ρ = some y) :
    (sub a b).value F ρ = some (x - y) :=
  value_sub_eq_some.mpr ⟨x, y, ha, hb, rfl⟩

theorem value_mul (ha : a.value F ρ = some x) (hb : b.value F ρ = some y) :
    (mul a b).value F ρ = some (x * y) :=
  value_mul_eq_some.mpr ⟨x, y, ha, hb, rfl⟩

/-- The value of a quotient is what gives the dividend when multiplied by the divisor. -/
theorem value_div (ha : a.value F ρ = some x) (hb : b.value F ρ = some y) (hy : IsUnit y)
    (hv : v * y = x) : (div a b).value F ρ = some v :=
  value_div_eq_some.mpr ⟨x, y, ha, hb, hy, hv⟩

theorem value_pow (ha : a.value F ρ = some x) (hb : b.value F ρ = some y)
    (hv : F.pow x y = some v) : (pow a b).value F ρ = some v :=
  value_pow_eq_some.mpr ⟨x, y, ha, hb, hv⟩

/-- The value of a number. -/
theorem value_num {n : K} {q : ℚ} (h : toRat? n = some q) :
    (num n).value F ρ = some (algebraMap ℚ A q) :=
  value_num_eq_some.mpr ⟨q, h, rfl⟩

@[simp] theorem value_zero : (zero : Expr K).value F ρ = some 0 := by
  rw [zero, value_num ExactScalar.toRat?_zero, map_zero]

@[simp] theorem value_one : (one : Expr K).value F ρ = some 1 := by
  rw [one, value_num ExactScalar.toRat?_one, map_one]

@[simp] theorem value_two : (two : Expr K).value F ρ = some 2 := by
  rw [two, value_num ExactScalar.toRat?_two, map_ofNat]

end Expr

end FlatModel.Symbolic
