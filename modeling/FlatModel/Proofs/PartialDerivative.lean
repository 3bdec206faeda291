import Mathlib
import FlatModel.Proofs.Except
import FlatModel.Proofs.Gradient

/-!
# The partial derivative is the derivative

* `Reading.tangent` — calls over dual numbers where an argument that stands still is enough: only a
  function whose argument moves needs its derivative.
* `Expr.OuterUsed` — where the derivatives that the chain rule uses are defined.
* `Expr.exists_tangent` — a smooth expression moves with an atom by the value of its partial
  derivative, by one rule for each operator.
* `Expr.diff_moves` — the same of the simplified partial derivative, over both readings of calls.
-/

namespace FlatModel.Symbolic

open TrivSqZeroExt (inl inr)

variable {K : Type} [ExactScalar K]

/-! ## Functions of moving arguments -/

/-- A function of a dual number moves by its derivative, and not at all if its argument does not. -/
noncomputable def Reading.tangentCall (R : Reading K ℚ) (f : String) :
    List (DualNumber ℚ) → Option (DualNumber ℚ)
  | [x] => if x.snd = 0 then (R.call f [x.fst]).map inl else R.dualCall f [x]
  | _ => none

/-- Powers and calls over dual numbers, with no derivative asked of a function whose argument stands
still. -/
noncomputable def Reading.tangent (R : Reading K ℚ) : Functions (DualNumber ℚ) where
  pow := dualPow
  call := R.tangentCall

namespace Reading

variable {R : Reading K ℚ} {f : String} {x y s d : ℚ}

/-- Powers of dual numbers with natural exponents are the usual ones. -/
theorem tangent_naturalPowers : R.tangent.NaturalPowers := fun x n => R.dual_naturalPowers x n

/-- A function of an argument that stands still has its value. -/
theorem tangent_call_still (hy : R.call f [x] = some y) :
    R.tangent.call f [inl x + inr 0] = some (inl y + inr 0) := by
  show R.tangentCall f [inl x + inr 0] = _
  rw [tangentCall, snd_moved, if_pos rfl, fst_moved, hy]
  simp

/-- A function whose derivative is known moves by it. -/
theorem tangent_call (hy : R.call f [x] = some y) (hs : R.slope f x = some s) :
    R.tangent.call f [inl x + inr d] = some (inl y + inr (s * d)) := by
  by_cases hd : d = 0
  · rw [hd, mul_zero]
    exact tangent_call_still hy
  · show R.tangentCall f [inl x + inr d] = _
    rw [tangentCall, snd_moved, if_neg hd]
    exact dual_call hy hs

end Reading

namespace Expr

/-! ## What the chain rule uses -/

/-- At every call whose argument varies with the atom `α`, the derivative of the called function is
defined. -/
def OuterUsed (R : Reading K ℚ) (ρ : Valuation ℚ) (α : Atom) : Expr K → Prop
  | .num _ => True
  | .sym _ => True
  | .der _ => True
  | .neg a => a.OuterUsed R ρ α
  | .add a b => a.OuterUsed R ρ α ∧ b.OuterUsed R ρ α
  | .sub a b => a.OuterUsed R ρ α ∧ b.OuterUsed R ρ α
  | .mul a b => a.OuterUsed R ρ α ∧ b.OuterUsed R ρ α
  | .div a b => a.OuterUsed R ρ α ∧ b.OuterUsed R ρ α
  | .pow a b => a.OuterUsed R ρ α ∧ b.OuterUsed R ρ α
  | .call f [a] => a.OuterUsed R ρ α ∧ ∀ da, a.diff α.expr = .ok da → da.isZero = false →
      ∀ outer, outerDerivative? f a = some outer → ∃ s, outer.value R.toFunctions ρ = some s
  | .call _ _ => True

/-- The derivative of `e` has the value `w`, and `e` moves by `w` with the atom `α`. -/
structure Tangent (R : Reading K ℚ) (ρ : Valuation ℚ) (α : Atom) (e : Expr K) (v w : ℚ) : Prop where
  /-- The move. -/
  moves : Moves R R.tangent ρ (Pi.single α 1) e v w
  /-- The derivative. -/
  derivative : HasDerivative R ρ (unitLeaf α.expr) e w

variable {R : Reading K ℚ} {ρ : Valuation ℚ} {α : Atom}

/-- The partial derivative of an expression with a derivative is what that simplifies to. -/
theorem HasDerivative.exists_diff {var a : Expr K} {dx : ℚ}
    (ha : HasDerivative R ρ (unitLeaf var) a dx) :
    ∃ da, a.diff var = .ok da ∧ da.value R.toFunctions ρ = some dx := by
  obtain ⟨d, hd, hdx⟩ := ha
  refine ⟨d.simplify, ?_, hdx⟩
  rw [diff, hd]
  rfl

/-- A call is constant if its argument is. -/
theorem HasDerivative.constantCall {f : String} {leaf : Expr K → Expr K} {a d : Expr K}
    (ha : a.derivative leaf = .ok d) (hd : d.simplify.isZero = true) :
    HasDerivative R ρ leaf (call f [a]) 0 := by
  have hall : derivativeAll leaf [a] = .ok [d.simplify] := by
    rw [derivativeAll, ha]
    rfl
  refine ⟨zero, ?_, value_zero⟩
  rw [derivative, hall]
  exact if_pos (by rw [List.all_cons, hd]; rfl)

/-- A function of one argument, whether or not the argument moves. -/
theorem Tangent.call {f : String} {a : Expr K} {x y dx : ℚ} (ha : Tangent R ρ α a x dx)
    (hy : R.call f [x] = some y) (hf : (outerDerivative? f a).isSome)
    (hused : ∀ da, a.diff α.expr = .ok da → da.isZero = false →
      ∀ outer, outerDerivative? f a = some outer → ∃ s, outer.value R.toFunctions ρ = some s) :
    ∃ w, Tangent R ρ α (.call f [a]) y w := by
  obtain ⟨da, hda, hdx⟩ := ha.derivative.exists_diff
  rcases hzero : da.isZero with _ | _
  · -- the argument varies, and the derivative of the function is used
    obtain ⟨outer, houter⟩ := Option.isSome_iff_exists.mp hf
    obtain ⟨s, hs⟩ := hused da hda hzero outer houter
    have hslope : R.slope f x = some s := (slope_of_outerDerivative? houter ha.moves.value).trans hs
    exact ⟨s * dx, ha.moves.call hy (Reading.tangent_call hy hslope),
      .outerCall houter hs ha.derivative⟩
  · -- the argument stands still
    have hdx0 : dx = 0 := value_eq_zero hzero hdx
    have hmoves := ha.moves
    rw [hdx0] at hmoves
    obtain ⟨d, hd, heq⟩ := bind_eq_ok.mp hda
    cases heq
    exact ⟨0, hmoves.call hy (Reading.tangent_call_still hy), .constantCall hd hzero⟩

/-- **A smooth expression moves with an atom by the value of its derivative**, wherever it and the
derivatives that the chain rule uses are defined. -/
theorem exists_tangent (hpow : R.NaturalPowers) : ∀ {e : Expr K} {v : ℚ}, e.Smooth →
    e.OuterUsed R ρ α → e.value R.toFunctions ρ = some v → ∃ w, Tangent R ρ α e v w
  | .num m, v, _, _, hv => by
      obtain ⟨q, hq, rfl⟩ := value_num_eq_some.mp hv
      exact ⟨0, .num hq, zero, rfl, value_zero⟩
  | .sym n, v, _, _, hv => ⟨_, .atom (α := ⟨n, 0⟩) hv, by
      rw [Pi.single_apply]
      exact .atom ⟨n, 0⟩ α⟩
  | .der a, v, ⟨β, hβ⟩, _, hv => by
      have hder : (Expr.der a).atom? = some β.der := congrArg (Option.map Atom.der) hβ
      rw [eq_expr_of_atom? hder, value_atom] at hv
      rw [eq_expr_of_atom? hder]
      refine ⟨_, .atom hv, ?_⟩
      rw [Pi.single_apply]
      exact .atom β.der α
  | .neg a, v, hs, ho, hv => by
      obtain ⟨x, hx, rfl⟩ := value_neg_eq_some.mp hv
      obtain ⟨dx, ha⟩ := exists_tangent hpow (e := a) hs ho hx
      exact ⟨_, ha.moves.neg, ha.derivative.neg⟩
  | .add a b, v, hs, ho, hv => by
      obtain ⟨x, y, hx, hy, rfl⟩ := value_add_eq_some.mp hv
      obtain ⟨dx, ha⟩ := exists_tangent hpow hs.1 ho.1 hx
      obtain ⟨dy, hb⟩ := exists_tangent hpow hs.2 ho.2 hy
      exact ⟨_, ha.moves.add hb.moves, ha.derivative.add hb.derivative⟩
  | .sub a b, v, hs, ho, hv => by
      obtain ⟨x, y, hx, hy, rfl⟩ := value_sub_eq_some.mp hv
      obtain ⟨dx, ha⟩ := exists_tangent hpow hs.1 ho.1 hx
      obtain ⟨dy, hb⟩ := exists_tangent hpow hs.2 ho.2 hy
      exact ⟨_, ha.moves.sub hb.moves, ha.derivative.sub hb.derivative⟩
  | .mul a b, v, hs, ho, hv => by
      obtain ⟨x, y, hx, hy, rfl⟩ := value_mul_eq_some.mp hv
      obtain ⟨dx, ha⟩ := exists_tangent hpow hs.1 ho.1 hx
      obtain ⟨dy, hb⟩ := exists_tangent hpow hs.2 ho.2 hy
      have hderivative := HasDerivative.mul hx hy ha.derivative hb.derivative
      rw [mul_comm dx y] at hderivative
      exact ⟨_, ha.moves.mul hb.moves, hderivative⟩
  | .div a b, v, hs, ho, hv => by
      obtain ⟨x, y, hx, hy, hu, hv⟩ := value_div_eq_some.mp hv
      obtain ⟨dx, ha⟩ := exists_tangent hpow hs.1 ho.1 hx
      obtain ⟨dy, hb⟩ := exists_tangent hpow hs.2 ho.2 hy
      have hderivative :=
        HasDerivative.div hpow.usualSquares hx hy hu.ne_zero ha.derivative hb.derivative
      rw [mul_comm dx y, div_eq_inv_mul] at hderivative
      rw [eq_div_of_mul_eq hu.ne_zero hv]
      exact ⟨_, ha.moves.div hb.moves hu.ne_zero, hderivative⟩
  | .pow a b, v, ⟨hs, m, n, hb, hm, hn⟩, ho, hv => by
      subst hb
      obtain ⟨x, y, hx, hy, hv⟩ := value_pow_eq_some.mp hv
      obtain ⟨dx, ha⟩ := exists_tangent hpow hs ho.1 hx
      have hmoves := ha.moves.natPow hpow Reading.tangent_naturalPowers hm
      rw [Option.some_inj.mp ((value_pow hx hy hv).symm.trans hmoves.value)]
      exact ⟨_, hmoves, .natPow hpow hm hn hx ha.derivative⟩
  | .call f [a], v, hs, ho, hv => by
      obtain ⟨xs, hxs, hv⟩ := value_call_eq_some.mp hv
      obtain ⟨x, ys, hx, hys, rfl⟩ := valueAll_cons_eq_some.mp hxs
      cases hys
      obtain ⟨dx, ha⟩ := exists_tangent hpow hs.1 ho.1 hx
      exact ha.call hv hs.2 ho.2

/-- **The partial derivative is the derivative.**  Where a smooth expression and the derivatives that
the chain rule uses are defined, the partial derivative by an atom has a value, and over dual numbers
the expression moves by that value when the atom moves by `ε` and all other atoms stay.  If the
derivatives of all called functions are defined, also those of arguments that stand still, the same
holds with every function moving by its derivative. -/
theorem diff_moves (R : Reading K ℚ) (hpow : R.NaturalPowers) {e d : Expr K} {α : Atom}
    (he : e.Smooth) (hd : e.diff α.expr = .ok d) (ρ : Valuation ℚ) {v : ℚ}
    (hv : e.value R.toFunctions ρ = some v) (ho : e.OuterUsed R ρ α) :
    ∃ w, d.value R.toFunctions ρ = some w ∧
      e.value R.tangent (ρ.perturb (Pi.single α 1)) = some (inl v + inr w) ∧
        (e.OuterDefined R ρ →
          e.value R.dual (ρ.perturb (Pi.single α 1)) = some (inl v + inr w)) := by
  obtain ⟨w, hmoves, hderivative⟩ := exists_tangent hpow he ho hv
  have hw := hderivative.value_diff hd
  refine ⟨w, hw, hmoves.dual, fun houter => ?_⟩
  obtain ⟨L, hL⟩ := exists_gradient hpow he houter hv
  have hLw := (hL.partials α).value_diff hd
  rw [hw, Option.some_inj] at hLw
  rw [hL.dual, hLw]

/-- `abs(x * y) / (y - x) + y^2` by `y = der(x)`, where `x` is `-2` and `y` is `3`. -/
theorem diff_moves_of_quotient :
    let x : Expr (Exact .standard) := .sym "x"
    let y : Expr (Exact .standard) := (⟨"x", 1⟩ : Atom).expr
    let e := add (div (.call "abs" [mul x y]) (sub y x)) (pow y two)
    let d := add (div (sub (mul (mul (.call "sign" [mul x y]) x) (sub y x)) (.call "abs" [mul x y]))
      (pow (sub y x) two)) (mul two y)
    let ρ : Valuation ℚ := fun α => if α = ⟨"x", 0⟩ then some (-2) else
      if α = ⟨"x", 1⟩ then some 3 else none
    e.diff y = .ok d ∧ d.value Reading.standard.toFunctions ρ = some (154 / 25) ∧
      e.value Reading.standard.tangent (ρ.perturb (Pi.single ⟨"x", 1⟩ 1)) =
        some (inl (51 / 5) + inr (154 / 25)) := by
  intro x y e d ρ
  let F := Reading.standard.toFunctions
  have hdiff : e.diff y = .ok d := by cbv
  have hx : x.value F ρ = some (-2) := by simp [x, ρ, value]
  have hy : y.value F ρ = some 3 := by rw [value_atom]; simp [ρ]
  have hcall : ∀ {f : String} {v : ℚ}, F.call f [-2 * 3] = some v →
      (Expr.call f [mul x y]).value F ρ = some v := fun hv =>
    value_call_eq_some.mpr
      ⟨[-2 * 3], valueAll_cons_eq_some.mpr ⟨_, [], value_mul hx hy, rfl, rfl⟩, hv⟩
  have habs : (Expr.call "abs" [mul x y]).value F ρ = some |(-2 * 3 : ℚ)| := hcall rfl
  have hsign : (Expr.call "sign" [mul x y]).value F ρ = some (Functions.signOf (-2 * 3)) :=
    hcall rfl
  have hdivisor : (sub y x).value F ρ = some 5 := by
    rw [value_sub hy hx]
    norm_num
  have he : e.value F ρ = some (51 / 5) := by
    refine (value_add (value_div (v := 6 / 5) habs hdivisor ?_ ?_)
      (value_pow hy value_two (Functions.standard_naturalPowers 3 2))).trans ?_ <;> norm_num
  have hd : d.value F ρ = some (154 / 25) := by
    have hnumerator := value_sub (value_mul (value_mul hsign hx) hdivisor) habs
    have hsquare := value_pow hdivisor value_two (Functions.standard_naturalPowers 5 2)
    refine (value_add (value_div (v := 4 / 25) hnumerator hsquare ?_ ?_)
      (value_mul value_two hy)).trans ?_ <;> norm_num [Functions.signOf]
  have hsmooth : e.Smooth :=
    ⟨⟨⟨⟨trivial, ⟨"x", 0⟩, rfl⟩, rfl⟩, ⟨⟨"x", 0⟩, rfl⟩, trivial⟩, ⟨⟨"x", 0⟩, rfl⟩, _, 2, rfl,
      ExactScalar.toRat?_two, one_le_two⟩
  have hused : e.OuterUsed Reading.standard ρ ⟨"x", 1⟩ := by
    refine ⟨⟨⟨⟨trivial, trivial⟩, fun _ _ _ outer houter => ?_⟩, trivial, trivial⟩, trivial, trivial⟩
    cases houter
    exact ⟨_, hsign⟩
  obtain ⟨w, hw, hmoves, _⟩ :=
    diff_moves Reading.standard Functions.standard_naturalPowers hsmooth hdiff ρ he hused
  rw [hd, Option.some_inj] at hw
  exact ⟨hdiff, hd, hw ▸ hmoves⟩

end Expr

end FlatModel.Symbolic
