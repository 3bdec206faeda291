import Mathlib.Tactic.Ring
import Mathlib.Tactic.LinearCombination
import FlatModel.Proofs.Value

/-!
# Simplification keeps values

* `Expr.value_of_beq` — expressions that count as equal have the same value.
* `Expr.value_simplifyNeg`, `value_simplifyAdd`, … — the simplified form of one operator over given
  operands has the value of the operator, by the rules in their order.
* `Expr.value_simplify` — an expression with a value has the same value when simplified.

The converse fails: a product with zero is simplified to zero whatever the other factor is, so an
expression may gain a value.
-/

namespace FlatModel.Symbolic.Expr

open ExactScalar (toRat?)

variable {K A : Type} [ExactScalar K] [CommRing A] [Algebra ℚ A]

/-! ## Equal expressions -/

section

variable {F : Functions A} {ρ : Valuation A}

mutual

/-- Expressions that count as equal have the same value. -/
theorem value_of_beq : ∀ {a b : Expr K} {v : A}, a.beq b = true → a.value F ρ = some v →
    b.value F ρ = some v
  | .num x, .num y, v, h, hv => by
      obtain ⟨q, hq, rfl⟩ := value_num_eq_some.mp hv
      exact value_num ((ExactScalar.beq_iff hq).mp h)
  | .sym m, .sym n, v, h, hv => by
      rw [beq, beq_iff_eq] at h
      exact h ▸ hv
  | .der a, .der b, v, h, hv => by
      rw [beq] at h
      obtain ⟨α, hα, hρ⟩ := Option.bind_eq_some_iff.mp hv
      exact Option.bind_eq_some_iff.mpr ⟨α, atom?_of_beq h hα, hρ⟩
  | .neg a, .neg b, v, h, hv => by
      rw [beq] at h
      obtain ⟨x, hx, rfl⟩ := value_neg_eq_some.mp hv
      exact value_neg (value_of_beq h hx)
  | .add a b, .add c d, v, h, hv => by
      rw [beq, Bool.and_eq_true] at h
      obtain ⟨x, y, hx, hy, rfl⟩ := value_add_eq_some.mp hv
      exact value_add (value_of_beq h.1 hx) (value_of_beq h.2 hy)
  | .sub a b, .sub c d, v, h, hv => by
      rw [beq, Bool.and_eq_true] at h
      obtain ⟨x, y, hx, hy, rfl⟩ := value_sub_eq_some.mp hv
      exact value_sub (value_of_beq h.1 hx) (value_of_beq h.2 hy)
  | .mul a b, .mul c d, v, h, hv => by
      rw [beq, Bool.and_eq_true] at h
      obtain ⟨x, y, hx, hy, rfl⟩ := value_mul_eq_some.mp hv
      exact value_mul (value_of_beq h.1 hx) (value_of_beq h.2 hy)
  | .div a b, .div c d, v, h, hv => by
      rw [beq, Bool.and_eq_true] at h
      obtain ⟨x, y, hx, hy, hu, hv⟩ := value_div_eq_some.mp hv
      exact value_div (value_of_beq h.1 hx) (value_of_beq h.2 hy) hu hv
  | .pow a b, .pow c d, v, h, hv => by
      rw [beq, Bool.and_eq_true] at h
      obtain ⟨x, y, hx, hy, hv⟩ := value_pow_eq_some.mp hv
      exact value_pow (value_of_beq h.1 hx) (value_of_beq h.2 hy) hv
  | .call f as, .call g bs, v, h, hv => by
      rw [beq, Bool.and_eq_true, beq_iff_eq] at h
      obtain ⟨xs, hxs, hv⟩ := value_call_eq_some.mp hv
      exact value_call_eq_some.mpr ⟨xs, valueAll_of_beq h.2 hxs, h.1 ▸ hv⟩

/-- Lists of expressions that count as equal have the same values. -/
theorem valueAll_of_beq : ∀ {as bs : List (Expr K)} {vs : List A}, beqAll as bs = true →
    valueAll F ρ as = some vs → valueAll F ρ bs = some vs
  | [], [], _, _, hv => hv
  | a :: as, b :: bs, vs, h, hv => by
      rw [beqAll, Bool.and_eq_true] at h
      obtain ⟨x, xs, hx, hxs, rfl⟩ := valueAll_cons_eq_some.mp hv
      exact valueAll_cons_eq_some.mpr
        ⟨x, xs, value_of_beq h.1 hx, valueAll_of_beq h.2 hxs, rfl⟩

end

variable {a b : Expr K} {x y : A}

/-- The values of expressions that count as equal are equal, if both have one. -/
theorem values_eq_of_beq (h : a.beq b = true) (hx : a.value F ρ = some x)
    (hy : b.value F ρ = some y) : y = x :=
  Option.some_inj.mp (hy.symm.trans (value_of_beq h hx))

/-! ## Single numbers -/

/-- What counts as zero has the value zero, if it has one. -/
theorem value_eq_zero (h : a.isZero = true) (hx : a.value F ρ = some x) : x = 0 := by
  cases a with
  | num n =>
      obtain ⟨q, hq, rfl⟩ := value_num_eq_some.mp hx
      rw [(ExactScalar.isZero_iff hq).mp h, map_zero]
  | _ => cases h

/-- What counts as one has the value one, if it has one. -/
theorem value_eq_one (h : a.isOne = true) (hx : a.value F ρ = some x) : x = 1 := by
  cases a with
  | num n =>
      obtain ⟨q, hq, rfl⟩ := value_num_eq_some.mp hx
      rw [(ExactScalar.isOne_iff hq).mp h, map_one]
  | _ => cases h

/-- What counts as minus one has the value minus one, if it has one. -/
theorem value_eq_neg_one (h : a.isMinusOne = true) (hx : a.value F ρ = some x) : x = -1 := by
  cases a with
  | num n =>
      obtain ⟨q, hq, rfl⟩ := value_num_eq_some.mp hx
      rw [(ExactScalar.isMinusOne_iff hq).mp h, map_neg, map_one]
  | _ => cases h

/-- The opposite of a number below zero has the opposite value. -/
theorem value_negated? {n : K} (h : a.negated? = some n) (hx : a.value F ρ = some x) :
    (num n).value F ρ = some (-x) := by
  cases a with
  | num m =>
      obtain ⟨q, hq, rfl⟩ := value_num_eq_some.mp hx
      rw [negated?] at h
      split at h
      · cases h
        rw [value_num (ExactScalar.toRat?_neg hq), map_neg]
      · cases h
  | _ => cases h

/-! ## One operator -/

/-- The simplified opposite has the opposite value. -/
theorem value_simplifyNeg (hx : a.value F ρ = some x) : (simplifyNeg a).value F ρ = some (-x) := by
  cases a with
  | num n =>
      obtain ⟨q, hq, rfl⟩ := value_num_eq_some.mp hx
      rw [simplifyNeg, value_num (ExactScalar.toRat?_neg hq), map_neg]
  | neg c =>
      obtain ⟨z, hz, rfl⟩ := value_neg_eq_some.mp hx
      rw [simplifyNeg, neg_neg, hz]
  | sub c d =>
      obtain ⟨y, z, hy, hz, rfl⟩ := value_sub_eq_some.mp hx
      rw [simplifyNeg, neg_sub]
      exact value_sub hz hy
  | _ => exact value_neg hx

/-- The simplified product has the value of the product. -/
theorem value_simplifyMul (hx : a.value F ρ = some x) (hy : b.value F ρ = some y) :
    (simplifyMul a b).value F ρ = some (x * y) := by
  fun_induction simplifyMul a b generalizing x y with
  | case1 m n =>
      obtain ⟨p, hp, rfl⟩ := value_num_eq_some.mp hx
      obtain ⟨q, hq, rfl⟩ := value_num_eq_some.mp hy
      rw [value_num (ExactScalar.toRat?_mul hp hq), map_mul]
  | case2 a b _ h =>
      rcases Bool.or_eq_true_iff.mp h with h | h
      · rw [value_eq_zero h hx, zero_mul, value_zero]
      · rw [value_eq_zero h hy, mul_zero, value_zero]
  | case3 a b _ _ h => rw [value_eq_one h hx, one_mul, hy]
  | case4 a b _ _ _ h => rw [value_eq_one h hy, mul_one, hx]
  | case5 a b _ _ _ _ h =>
      rw [value_eq_neg_one h hx, neg_one_mul]
      exact value_simplifyNeg hy
  | case6 a b _ _ _ _ _ h =>
      rw [value_eq_neg_one h hy, mul_neg_one]
      exact value_simplifyNeg hx
  | case7 c b _ _ _ _ _ _ ih =>
      obtain ⟨z, hz, rfl⟩ := value_neg_eq_some.mp hx
      rw [neg_mul]
      exact value_simplifyNeg (ih hz hy)
  | case8 a c _ _ _ _ _ _ _ ih =>
      obtain ⟨z, hz, rfl⟩ := value_neg_eq_some.mp hy
      rw [mul_neg]
      exact value_simplifyNeg (ih hx hz)
  | case9 c d n _ _ _ _ _ _ ih =>
      obtain ⟨u, w, hu, hw, rfl⟩ := value_mul_eq_some.mp hx
      obtain ⟨p, hp, rfl⟩ := value_num_eq_some.mp hu
      obtain ⟨q, hq, rfl⟩ := value_num_eq_some.mp hy
      rw [ih (value_num (ExactScalar.toRat?_mul hq hp)) hw, map_mul]
      congr 1
      ring
  | case10 a n =>
      rw [mul_comm]
      exact value_mul hy hx
  | case11 m c d _ _ _ _ _ _ ih =>
      obtain ⟨u, w, hu, hw, rfl⟩ := value_mul_eq_some.mp hy
      obtain ⟨p, hp, rfl⟩ := value_num_eq_some.mp hu
      obtain ⟨q, hq, rfl⟩ := value_num_eq_some.mp hx
      rw [ih (value_num (ExactScalar.toRat?_mul hq hp)) hw, map_mul]
      congr 1
      ring
  | case12 a b => exact value_mul hx hy

/-- The simplified sum and difference have the values of sum and difference.  Both are proved
together, because sums with an opposite become differences and the other way round. -/
theorem value_simplifyAdd_simplifySub :
    (∀ a b : Expr K, ∀ ⦃x y : A⦄, a.value F ρ = some x → b.value F ρ = some y →
      (simplifyAdd a b).value F ρ = some (x + y)) ∧
    (∀ a b : Expr K, ∀ ⦃x y : A⦄, a.value F ρ = some x → b.value F ρ = some y →
      (simplifySub a b).value F ρ = some (x - y)) := by
  apply simplifyAdd.mutual_induct_unfolding
    (fun a b r => ∀ ⦃x y : A⦄, a.value F ρ = some x → b.value F ρ = some y →
      r.value F ρ = some (x + y))
    (fun a b r => ∀ ⦃x y : A⦄, a.value F ρ = some x → b.value F ρ = some y →
      r.value F ρ = some (x - y))
  case case1 =>
    intro m n x y hx hy
    obtain ⟨p, hp, rfl⟩ := value_num_eq_some.mp hx
    obtain ⟨q, hq, rfl⟩ := value_num_eq_some.mp hy
    rw [value_num (ExactScalar.toRat?_add hp hq), map_add]
  case case2 =>
    intro a b _ h x y hx hy
    rw [value_eq_zero h hx, zero_add, hy]
  case case3 =>
    intro a b _ _ h x y hx hy
    rw [value_eq_zero h hy, add_zero, hx]
  case case4 =>
    intro a c _ _ _ ih x y hx hy
    obtain ⟨z, hz, rfl⟩ := value_neg_eq_some.mp hy
    rw [← sub_eq_add_neg]
    exact ih hx hz
  case case5 =>
    intro c b _ _ _ _ ih x y hx hy
    obtain ⟨z, hz, rfl⟩ := value_neg_eq_some.mp hx
    rw [neg_add_eq_sub]
    exact ih hy hz
  case case6 =>
    intro a b _ _ n hn _ _ _ x y hx hy
    rw [← sub_neg_eq_add]
    exact value_sub hx (value_negated? hn hy)
  case case7 =>
    intro a b _ _ _ h _ _ _ x y hx hy
    have hxy : y = x := values_eq_of_beq h hx hy
    rw [hxy, ← two_mul]
    exact value_simplifyMul value_two hx
  case case8 =>
    intro a b _ _ _ _ _ _ _ x y hx hy
    exact value_add hx hy
  case case9 =>
    intro m n x y hx hy
    obtain ⟨p, hp, rfl⟩ := value_num_eq_some.mp hx
    obtain ⟨q, hq, rfl⟩ := value_num_eq_some.mp hy
    rw [value_num (ExactScalar.toRat?_sub hp hq), map_sub]
  case case10 =>
    intro a b _ h x y hx hy
    rw [value_eq_zero h hy, sub_zero, hx]
  case case11 =>
    intro a b _ _ h x y hx hy
    rw [value_eq_zero h hx, zero_sub]
    exact value_simplifyNeg hy
  case case12 =>
    intro a b _ _ _ h x y hx hy
    have hxy : y = x := values_eq_of_beq h hx hy
    rw [hxy, sub_self, value_zero]
  case case13 =>
    intro a c _ _ _ _ ih x y hx hy
    obtain ⟨z, hz, rfl⟩ := value_neg_eq_some.mp hy
    rw [sub_neg_eq_add]
    exact ih hx hz
  case case14 =>
    intro b _ n c hn _ _ _ _ ih x y hx hy
    obtain ⟨z, hz, rfl⟩ := value_neg_eq_some.mp hx
    rw [neg_sub_comm]
    exact ih (value_negated? hn hy) hz
  case case15 =>
    intro b _ n a _ hn _ _ _ _ x y hx hy
    rw [sub_eq_add_neg]
    exact value_add hx (value_negated? hn hy)
  case case16 =>
    intro b _ a _ _ _ _ _ x y hx hy
    exact value_sub hx hy

/-- The simplified sum has the value of the sum. -/
theorem value_simplifyAdd (hx : a.value F ρ = some x) (hy : b.value F ρ = some y) :
    (simplifyAdd a b).value F ρ = some (x + y) :=
  value_simplifyAdd_simplifySub.1 a b hx hy

/-- The simplified difference has the value of the difference. -/
theorem value_simplifySub (hx : a.value F ρ = some x) (hy : b.value F ρ = some y) :
    (simplifySub a b).value F ρ = some (x - y) :=
  value_simplifyAdd_simplifySub.2 a b hx hy

/-- The simplified quotient has the value of the quotient, where that is defined. -/
theorem value_simplifyDiv {v : A} (hx : a.value F ρ = some x) (hy : b.value F ρ = some y)
    (hu : IsUnit y) (hv : v * y = x) : (simplifyDiv a b).value F ρ = some v := by
  fun_induction simplifyDiv a b generalizing x y v with
  | case1 m n _ => exact value_div hx hy hu hv
  | case2 m n h =>
      obtain ⟨p, hp, rfl⟩ := value_num_eq_some.mp hx
      obtain ⟨q, hq, rfl⟩ := value_num_eq_some.mp hy
      have hq0 : q ≠ 0 := fun h0 => h ((ExactScalar.isZero_iff hq).mpr h0)
      rw [value_num (ExactScalar.toRat?_div hp hq hq0)]
      congr 1
      apply hu.mul_right_cancel
      rw [hv, ← map_mul, div_mul_cancel₀ p hq0]
  | case3 a b _ h =>
      rw [Bool.and_eq_true] at h
      have hv0 : v * y = 0 := hv.trans (value_eq_zero h.1 hx)
      rw [value_zero, (hu.mul_left_eq_zero).mp hv0]
  | case4 a b _ _ h =>
      rw [value_eq_one h hy, mul_one] at hv
      rw [hv, hx]
  | case5 a b _ _ _ h =>
      rw [value_eq_neg_one h hy, mul_neg_one] at hv
      rw [value_simplifyNeg hx, ← hv, neg_neg]
  | case6 a b _ _ _ _ h =>
      rw [Bool.and_eq_true] at h
      have hxy : y = x := values_eq_of_beq h.1 hx hy
      rw [value_one]
      congr 1
      apply hu.mul_right_cancel
      rw [hv, one_mul, hxy]
  | case7 c b _ _ _ _ _ ih =>
      obtain ⟨z, hz, rfl⟩ := value_neg_eq_some.mp hx
      rw [← neg_neg v]
      exact value_simplifyNeg (ih hz hy hu (by rw [neg_mul, hv, neg_neg]))
  | case8 a c _ _ _ _ _ _ ih =>
      obtain ⟨z, hz, rfl⟩ := value_neg_eq_some.mp hy
      rw [← neg_neg v]
      exact value_simplifyNeg (ih hx hz ((IsUnit.neg_iff z).mp hu) (by rw [neg_mul, ← mul_neg, hv]))
  | case9 a b _ _ _ _ _ _ _ => exact value_div hx hy hu hv

end

/-! ## Powers and calls -/

section reading

variable {R : Reading K A} {ρ : Valuation A} {a b : Expr K} {x y v : A}

/-- A power of numbers folds to its value. -/
theorem value_foldedPow? {n : K} (h : foldedPow? a b = some n)
    (hx : a.value R.toFunctions ρ = some x) (hy : b.value R.toFunctions ρ = some y)
    (hv : R.pow x y = some v) : (num n).value R.toFunctions ρ = some v := by
  unfold foldedPow? at h
  split at h
  · rename_i m k
    obtain ⟨p, hp, rfl⟩ := value_num_eq_some.mp hx
    obtain ⟨q, hq, rfl⟩ := value_num_eq_some.mp hy
    dsimp only at h
    split at h
    · rename_i hfin
      cases h
      obtain ⟨r, hr⟩ := ExactScalar.isFinite_iff.mp hfin
      rw [value_num hr, ← hv, R.pow_folds hp hq hr]
    · cases h
  · cases h

/-- The simplified power has the value of the power, where that is defined. -/
theorem value_simplifyPow (hx : a.value R.toFunctions ρ = some x)
    (hy : b.value R.toFunctions ρ = some y) (hv : R.pow x y = some v) :
    (simplifyPow a b).value R.toFunctions ρ = some v := by
  unfold simplifyPow
  split
  · rename_i n hn
    exact value_foldedPow? hn hx hy hv
  · split_ifs with hb0 hb1 ha1
    · rw [value_eq_zero hb0 hy] at hv
      rw [value_one, R.powerLaws.pow_zero hv]
    · rw [value_eq_one hb1 hy] at hv
      rw [hx, R.powerLaws.pow_one hv]
    · rw [value_eq_one ha1 hx] at hv
      rw [value_one, R.powerLaws.one_pow hv]
    · exact value_pow hx hy hv

/-- The values of numbers are the rationals they stand for. -/
theorem exists_rats_of_numbers : ∀ {args : List (Expr K)} {ns : List K} {xs : List A},
    args.mapM number? = some ns → valueAll R.toFunctions ρ args = some xs →
      ∃ qs : List ℚ, List.Forall₂ (fun n q => toRat? n = some q) ns qs ∧
        qs.map (algebraMap ℚ A) = xs
  | [], ns, xs, hns, hxs => by
      cases hns
      cases hxs
      exact ⟨[], .nil, rfl⟩
  | a :: rest, ns, xs, hns, hxs => by
      rw [List.mapM_cons] at hns
      obtain ⟨n, hn, hns⟩ := Option.bind_eq_some_iff.mp hns
      obtain ⟨ms, hms, hns⟩ := Option.bind_eq_some_iff.mp hns
      cases hns
      obtain ⟨x, ys, hx, hys, rfl⟩ := valueAll_cons_eq_some.mp hxs
      obtain ⟨qs, hqs, rfl⟩ := exists_rats_of_numbers hms hys
      cases a with
      | num m =>
          cases hn
          obtain ⟨q, hq, rfl⟩ := value_num_eq_some.mp hx
          exact ⟨q :: qs, .cons hq hqs, rfl⟩
      | _ => cases hn

/-- The simplified call has the value of the call, where that is defined. -/
theorem value_simplifyCall {f : String} {args : List (Expr K)} {xs : List A}
    (hxs : valueAll R.toFunctions ρ args = some xs) (hv : R.call f xs = some v) :
    (simplifyCall f args).value R.toFunctions ρ = some v := by
  unfold simplifyCall
  split
  · rename_i n hn
    obtain ⟨ns, hns, hn⟩ := Option.bind_eq_some_iff.mp hn
    obtain ⟨z, hz, hn⟩ := Option.bind_eq_some_iff.mp hn
    split at hn
    · rename_i hfin
      cases hn
      obtain ⟨qs, hqs, rfl⟩ := exists_rats_of_numbers hns hxs
      obtain ⟨c, hc⟩ := ExactScalar.isFinite_iff.mp hfin
      rw [value_num hc, ← hv, R.call_folds hqs hz hc]
    · cases hn
  · exact value_call_eq_some.mpr ⟨xs, hxs, hv⟩

/-! ## Whole expressions -/

/-- Simplification leaves atoms alone. -/
theorem simplify_of_atom? : ∀ {e : Expr K} {α : Atom}, e.atom? = some α → e.simplify = e
  | .sym _, _, _ => rfl
  | .der a, α, h => by
      obtain ⟨β, hβ, rfl⟩ := Option.map_eq_some_iff.mp h
      rw [simplify, simplify_of_atom? hβ]

mutual

/-- **Simplification keeps values.** -/
theorem value_simplify : ∀ {e : Expr K} {v : A}, e.value R.toFunctions ρ = some v →
    e.simplify.value R.toFunctions ρ = some v
  | .num n, _, hv => hv
  | .sym n, _, hv => hv
  | .der a, v, hv => by
      obtain ⟨α, hα, hρ⟩ := Option.bind_eq_some_iff.mp hv
      rw [simplify, simplify_of_atom? hα]
      exact hv
  | .neg a, v, hv => by
      obtain ⟨x, hx, rfl⟩ := value_neg_eq_some.mp hv
      exact value_simplifyNeg (value_simplify hx)
  | .add a b, v, hv => by
      obtain ⟨x, y, hx, hy, rfl⟩ := value_add_eq_some.mp hv
      exact value_simplifyAdd (value_simplify hx) (value_simplify hy)
  | .sub a b, v, hv => by
      obtain ⟨x, y, hx, hy, rfl⟩ := value_sub_eq_some.mp hv
      exact value_simplifySub (value_simplify hx) (value_simplify hy)
  | .mul a b, v, hv => by
      obtain ⟨x, y, hx, hy, rfl⟩ := value_mul_eq_some.mp hv
      exact value_simplifyMul (value_simplify hx) (value_simplify hy)
  | .div a b, v, hv => by
      obtain ⟨x, y, hx, hy, hu, hv⟩ := value_div_eq_some.mp hv
      exact value_simplifyDiv (value_simplify hx) (value_simplify hy) hu hv
  | .pow a b, v, hv => by
      obtain ⟨x, y, hx, hy, hv⟩ := value_pow_eq_some.mp hv
      exact value_simplifyPow (value_simplify hx) (value_simplify hy) hv
  | .call f args, v, hv => by
      obtain ⟨xs, hxs, hv⟩ := value_call_eq_some.mp hv
      exact value_simplifyCall (valueAll_simplifyAll hxs) hv

/-- Simplification keeps the values of the expressions of a list. -/
theorem valueAll_simplifyAll : ∀ {args : List (Expr K)} {xs : List A},
    valueAll R.toFunctions ρ args = some xs → valueAll R.toFunctions ρ (simplifyAll args) = some xs
  | [], _, hxs => hxs
  | a :: rest, xs, hxs => by
      obtain ⟨x, ys, hx, hys, rfl⟩ := valueAll_cons_eq_some.mp hxs
      exact valueAll_cons_eq_some.mpr ⟨x, ys, value_simplify hx, valueAll_simplifyAll hys, rfl⟩

end

end reading

/-- **Simplification never takes away or changes a value.**  Whatever partial functions powers and
calls are read by, and whatever is known of the atoms: an expression with a rational value has that
value when simplified. -/
theorem simplify_preserves_value (R : Reading K ℚ) (ρ : Valuation ℚ) (e : Expr K) {v : ℚ}
    (hv : e.value R.toFunctions ρ = some v) : e.simplify.value R.toFunctions ρ = some v :=
  value_simplify hv

/-- `(x - (-der(y))) * (-1 * x) / (1 + 1)` where `x` is `3/2` and `der(y)` is `-1/4`. -/
theorem simplify_preserves_value_of_quotient :
    let x : Expr (Exact .standard) := .sym "x"
    let e := div (mul (sub x (neg (der (sym "y")))) (mul (neg one) x)) (add one one)
    let ρ : Valuation ℚ := fun α => if α = ⟨"x", 0⟩ then some (3 / 2) else
      if α = ⟨"y", 1⟩ then some (-1 / 4) else none
    e.value Reading.standard.toFunctions ρ = some (-15 / 16) ∧
      e.simplify.value Reading.standard.toFunctions ρ = some (-15 / 16) := by
  intro x e ρ
  have hx : x.value Reading.standard.toFunctions ρ = some (3 / 2) := by simp [x, ρ, value]
  have hy : (der (sym "y") : Expr (Exact .standard)).value Reading.standard.toFunctions ρ =
      some (-1 / 4) := by
    simp [ρ, value, atom?, Atom.der]
  have he : e.value Reading.standard.toFunctions ρ = some (-15 / 16) :=
    value_div (value_mul (value_sub hx (value_neg hy)) (value_mul (value_neg value_one) hx))
      (value_add value_one value_one) (isUnit_iff_ne_zero.mpr (by norm_num)) (by norm_num)
  exact ⟨he, simplify_preserves_value Reading.standard ρ e he⟩

end FlatModel.Symbolic.Expr
