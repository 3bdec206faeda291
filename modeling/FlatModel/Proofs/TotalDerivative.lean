import Mathlib
import FlatModel.Proofs.IndependentDerivative

/-!
# The chain rule over time

The time derivative of an expression is the sum, over the atoms that move with time, of the partial
derivative by the atom times the rate of the atom.

* `Atom.isMoving`, `Expr.atoms`, `Expr.movingAtoms` — the atoms of an expression, and those that move.
* `Expr.StaticExponents`, `Expr.ChainDefined` — the expressions that the rule is about, and where all
  that it uses is defined.
* `totals` — families of derivatives of which one is the total of the others.
* `Expr.Chain` — the time derivative and all partial derivatives of an expression, with their values;
  one rule for each operator.
* `Expr.exists_chain` — the induction; `Expr.timeDerivative_eq_sum_partials` — its result.

Time derivative and partial derivatives are computed apart, with other simplifications on the way.  A
power or a call may take a different branch in each of them, so the rules are about values.
-/

namespace FlatModel.Symbolic

open ExactScalar (toRat?)

/-! ## Atoms that move -/

/-- Whether an atom moves with time: time derivatives do, and dynamic symbols. -/
def Atom.isMoving (dynamic : String → Bool) (α : Atom) : Bool := decide (0 < α.order) || dynamic α.name

namespace Expr

section atoms

variable {K : Type}

mutual

/-- The atoms that the leaves of an expression are. -/
def atoms : Expr K → Finset Atom
  | .num _ => ∅
  | .sym n => {⟨n, 0⟩}
  | .der a => (a.atom?.map Atom.der).toFinset
  | .neg a => a.atoms
  | .add a b => a.atoms ∪ b.atoms
  | .sub a b => a.atoms ∪ b.atoms
  | .mul a b => a.atoms ∪ b.atoms
  | .div a b => a.atoms ∪ b.atoms
  | .pow a b => a.atoms ∪ b.atoms
  | .call _ args => atomsOf args

/-- The atoms of the expressions of a list. -/
def atomsOf : List (Expr K) → Finset Atom
  | [] => ∅
  | a :: rest => a.atoms ∪ atomsOf rest

end

mutual

/-- Every leaf that is an atom is among the atoms. -/
theorem allLeaves_atoms : ∀ {e : Expr K} {S : Finset Atom}, e.atoms ⊆ S →
    e.AllLeaves fun l => ∀ α, l.atom? = some α → α ∈ S
  | .num _, _, _ => nofun
  | .sym n, _, h => fun α hα => by
      cases hα
      exact h (Finset.mem_singleton_self _)
  | .der a, _, h => fun α hα => h (Option.mem_toFinset.mpr hα)
  | .neg a, _, h => allLeaves_atoms (e := a) h
  | .add a b, _, h | .sub a b, _, h | .mul a b, _, h | .div a b, _, h | .pow a b, _, h =>
      ⟨allLeaves_atoms (e := a) (Finset.union_subset_left h),
        allLeaves_atoms (e := b) (Finset.union_subset_right h)⟩
  | .call _ args, _, h => allLeavesOf_atomsOf (s := args) h

/-- Every leaf of a list of expressions that is an atom is among their atoms. -/
theorem allLeavesOf_atomsOf : ∀ {s : List (Expr K)} {S : Finset Atom}, atomsOf s ⊆ S →
    AllLeavesOf (fun l => ∀ α, l.atom? = some α → α ∈ S) s
  | [], _, _ => trivial
  | a :: rest, _, h =>
      ⟨allLeaves_atoms (e := a) (Finset.union_subset_left h),
        allLeavesOf_atomsOf (s := rest) (Finset.union_subset_right h)⟩

end

/-- The dynamic symbols and the time derivatives of an expression. -/
def movingAtoms (dynamic : String → Bool) (e : Expr K) : Finset Atom :=
  e.atoms.filter fun α => α.isMoving dynamic

/-- Every leaf that is an atom that moves is among the atoms that move. -/
theorem allLeaves_movingAtoms (dynamic : String → Bool) (e : Expr K) :
    e.AllLeaves fun l => ∀ α, l.atom? = some α → α.isMoving dynamic = true →
      α ∈ e.movingAtoms dynamic := by
  refine (allLeaves_atoms subset_rfl).imp fun l hl α hα hmoving => ?_
  rw [movingAtoms, Finset.mem_filter]
  exact ⟨hl α hα, hmoving⟩

end atoms

/-! ## Where the chain rule applies -/

section defined

variable {K : Type}

mutual

/-- The exponents of all powers are at rest. -/
def StaticExponents (dynamic : String → Bool) : Expr K → Prop
  | .num _ => True
  | .sym _ => True
  | .der _ => True
  | .neg a => a.StaticExponents dynamic
  | .add a b => a.StaticExponents dynamic ∧ b.StaticExponents dynamic
  | .sub a b => a.StaticExponents dynamic ∧ b.StaticExponents dynamic
  | .mul a b => a.StaticExponents dynamic ∧ b.StaticExponents dynamic
  | .div a b => a.StaticExponents dynamic ∧ b.StaticExponents dynamic
  | .pow a b => a.StaticExponents dynamic ∧ b.IsStatic dynamic
  | .call _ args => StaticExponentsOf dynamic args

/-- The exponents of all powers in the expressions of a list are at rest. -/
def StaticExponentsOf (dynamic : String → Bool) : List (Expr K) → Prop
  | [] => True
  | a :: rest => a.StaticExponents dynamic ∧ StaticExponentsOf dynamic rest

end

variable [ExactScalar K]

/-- What the chain rule uses besides the parts of the expression is defined: where the base of a power
moves, the power with one less for exponent, unless the exponent is zero; where the argument of a
function moves, the derivative of the function, if it is a known one. -/
def ChainDefined (R : Reading K ℚ) (ρ : Valuation ℚ) (dynamic : String → Bool) : Expr K → Prop
  | .num _ => True
  | .sym _ => True
  | .der _ => True
  | .neg a => a.ChainDefined R ρ dynamic
  | .add a b => a.ChainDefined R ρ dynamic ∧ b.ChainDefined R ρ dynamic
  | .sub a b => a.ChainDefined R ρ dynamic ∧ b.ChainDefined R ρ dynamic
  | .mul a b => a.ChainDefined R ρ dynamic ∧ b.ChainDefined R ρ dynamic
  | .div a b => a.ChainDefined R ρ dynamic ∧ b.ChainDefined R ρ dynamic
  | .pow a b => a.ChainDefined R ρ dynamic ∧ (¬ a.IsStatic dynamic → b.simplify.isZero = true ∨
      ∃ z, (Expr.pow a (.sub b one)).value R.toFunctions ρ = some z)
  | .call f [a] => a.ChainDefined R ρ dynamic ∧ (¬ a.IsStatic dynamic →
      ∀ outer, outerDerivative? f a = some outer → ∃ s, outer.value R.toFunctions ρ = some s)
  | .call _ _ => True

end defined

/-! ## Totals -/

section totals

variable {S : Finset Atom} {rate : Atom → ℚ}

/-- The families of a value for time and one for each atom, such that the value for time is the sum of
the values for the atoms times the rates of the atoms. -/
def totals (S : Finset Atom) (rate : Atom → ℚ) : Submodule ℚ (Option Atom → ℚ) where
  carrier := {w | w none = ∑ α ∈ S, w (some α) * rate α}
  zero_mem' := by simp
  add_mem' {w z} hw hz := by
    have hw : w none = ∑ α ∈ S, w (some α) * rate α := hw
    have hz : z none = ∑ α ∈ S, z (some α) * rate α := hz
    simp [hw, hz, add_mul, Finset.sum_add_distrib]
  smul_mem' c w hw := by
    have hw : w none = ∑ α ∈ S, w (some α) * rate α := hw
    simp [hw, Finset.mul_sum, mul_assoc]

theorem mem_totals {w : Option Atom → ℚ} :
    w ∈ totals S rate ↔ w none = ∑ α ∈ S, w (some α) * rate α := Iff.rfl

end totals

/-! ## Time and atoms at once -/

variable {K : Type} [ExactScalar K]

/-- The derivatives of leaves by time, and by an atom. -/
def chainLeaf (dynamic : String → Bool) : Option Atom → Expr K → Expr K
  | none => timeLeaf dynamic
  | some α => unitLeaf α.expr

/-- The expression has the value `v`, its derivatives by time and by the atoms `S` have the values `w`,
and that by time is the total of the others. -/
structure Chain (R : Reading K ℚ) (ρ : Valuation ℚ) (dynamic : String → Bool) (S : Finset Atom)
    (rate : Atom → ℚ) (e : Expr K) (v : ℚ) (w : Option Atom → ℚ) : Prop where
  /-- The value. -/
  value : e.value R.toFunctions ρ = some v
  /-- The derivatives. -/
  derivatives : ∀ i ∈ S.insertNone, HasDerivative R ρ (chainLeaf dynamic i) e (w i)
  /-- The sum. -/
  total : w ∈ totals S rate

/-- A call of a function whose derivative is not known is constant, if it has a derivative. -/
theorem callDerivative_of_unknown {f : String} {args dargs : List (Expr K)} {d : Expr K}
    (hf : ∀ a, args = [a] → outerDerivative? f a = none)
    (h : callDerivative f args dargs = .ok d) : d = zero := by
  unfold callDerivative at h
  split at h
  · cases h
    rfl
  · split at h
    · rw [hf _ rfl] at h
      cases h
    · cases h

/-- An expression at rest varies neither with time nor with an atom that moves. -/
theorem IsStatic.constantLeaves {dynamic : String → Bool} {S : Finset Atom}
    (hS : ∀ α ∈ S, α.isMoving dynamic = true) {e : Expr K} (he : e.IsStatic dynamic) :
    ∀ i ∈ S.insertNone, e.AllLeaves (ConstantLeaf (chainLeaf dynamic i))
  | none, _ => he.imp fun _ => StaticLeaf.constantLeaf
  | some α, hi => by
      have hmoving := hS α (Finset.some_mem_insertNone.mp hi)
      refine he.imp fun l hl => ?_
      cases l with
      | num _ => trivial
      | sym n =>
          refine constantLeaf_of_ne (Bool.eq_false_iff.mpr fun hbeq => ?_)
          have hα : α = ⟨n, 0⟩ := (expr_beq_expr (K := K) (α := ⟨n, 0⟩).mp hbeq).symm
          have hn : dynamic n = false := hl
          rw [hα, Atom.isMoving, hn] at hmoving
          cases hmoving
      | _ => cases hl

namespace Chain

variable {R : Reading K ℚ} {ρ : Valuation ℚ} {dynamic : String → Bool} {S : Finset Atom}
  {rate : Atom → ℚ} {a b : Expr K} {x y : ℚ} {wa wb : Option Atom → ℚ}

/-- What is at rest has no derivative but zero. -/
theorem still (hpow : R.NaturalPowers) (hS : ∀ α ∈ S, α.isMoving dynamic = true)
    (hx : a.value R.toFunctions ρ = some x) (ha : a.IsStatic dynamic) :
    Chain R ρ dynamic S rate a x 0 where
  value := hx
  derivatives i hi := .of_constant hpow hx (ha.constantLeaves hS i hi)
  total := zero_mem _

/-- An atom that moves has its rate for time derivative, and depends on no other atom. -/
theorem atom {α : Atom} (hα : α ∈ S) (hmoving : α.isMoving dynamic = true) (hx : ρ α = some x)
    (hrate : ρ α.der = some (rate α)) :
    Chain R ρ dynamic S rate α.expr x fun i => i.elim (rate α) fun β => if α = β then 1 else 0 where
  value := (value_atom α).trans hx
  derivatives := by
    rintro (_ | β) _
    · have hleaf : timeLeaf dynamic (α.expr : Expr K) = α.der.expr := by
        obtain ⟨n, _ | k⟩ := α
        · exact if_pos hmoving
        · rfl
      refine ⟨α.der.expr, ?_, ?_⟩
      · rw [derivative_expr]
        exact congrArg Except.ok hleaf
      · rw [simplify_of_atom? (Atom.atom?_expr _), value_atom, hrate]
        rfl
    · exact .atom α β
  total := by
    rw [mem_totals]
    simp [hα]

theorem neg (ha : Chain R ρ dynamic S rate a x wa) : Chain R ρ dynamic S rate (neg a) (-x) (-wa) where
  value := value_neg ha.value
  derivatives i hi := (ha.derivatives i hi).neg
  total := neg_mem ha.total

theorem add (ha : Chain R ρ dynamic S rate a x wa) (hb : Chain R ρ dynamic S rate b y wb) :
    Chain R ρ dynamic S rate (add a b) (x + y) (wa + wb) where
  value := value_add ha.value hb.value
  derivatives i hi := (ha.derivatives i hi).add (hb.derivatives i hi)
  total := add_mem ha.total hb.total

theorem sub (ha : Chain R ρ dynamic S rate a x wa) (hb : Chain R ρ dynamic S rate b y wb) :
    Chain R ρ dynamic S rate (sub a b) (x - y) (wa - wb) where
  value := value_sub ha.value hb.value
  derivatives i hi := (ha.derivatives i hi).sub (hb.derivatives i hi)
  total := sub_mem ha.total hb.total

/-- The product rule. -/
theorem mul (ha : Chain R ρ dynamic S rate a x wa) (hb : Chain R ρ dynamic S rate b y wb) :
    Chain R ρ dynamic S rate (mul a b) (x * y) (y • wa + x • wb) where
  value := value_mul ha.value hb.value
  derivatives i hi := by
    have h := HasDerivative.mul ha.value hb.value (ha.derivatives i hi) (hb.derivatives i hi)
    rwa [mul_comm (wa i) y] at h
  total := add_mem (Submodule.smul_mem _ y ha.total) (Submodule.smul_mem _ x hb.total)

/-- The quotient rule. -/
theorem div (hpow : R.NaturalPowers) (ha : Chain R ρ dynamic S rate a x wa)
    (hb : Chain R ρ dynamic S rate b y wb) (hy0 : y ≠ 0) :
    Chain R ρ dynamic S rate (div a b) (x / y) ((y ^ 2)⁻¹ • (y • wa - x • wb)) where
  value := value_div ha.value hb.value (isUnit_iff_ne_zero.mpr hy0) (div_mul_cancel₀ x hy0)
  derivatives i hi := by
    have h := HasDerivative.div hpow.usualSquares ha.value hb.value hy0 (ha.derivatives i hi)
      (hb.derivatives i hi)
    rwa [mul_comm (wa i) y, div_eq_inv_mul] at h
  total := Submodule.smul_mem _ _
    (sub_mem (Submodule.smul_mem _ y ha.total) (Submodule.smul_mem _ x hb.total))

/-- The power rule, for an exponent at rest: `f` is the exponent times the power with one less for
exponent. -/
theorem pow (hpow : R.NaturalPowers) (hS : ∀ α ∈ S, α.isMoving dynamic = true) {v f : ℚ}
    (hv : (Expr.pow a b).value R.toFunctions ρ = some v) (hb : b.IsStatic dynamic)
    (hf : (Expr.mul b (.pow a (.sub b one))).simplify.value R.toFunctions ρ = some f)
    (ha : Chain R ρ dynamic S rate a x wa) :
    Chain R ρ dynamic S rate (pow a b) v (f • wa) where
  value := hv
  derivatives i hi := by
    obtain ⟨x', y, _, hy, _⟩ := value_pow_eq_some.mp hv
    obtain ⟨da, hda, hdx⟩ := ha.derivatives i hi
    obtain ⟨db, hdb, hzero⟩ := derivative_of_constant (squaresFold_of_naturalPowers hpow)
      (finiteNumbers_of_value hy) (noZeroDivisor_of_value hy) (hb.constantLeaves hS i hi)
    refine ⟨.mul (.mul b (.pow a (.sub b one))) da, ?_, value_simplifyMul hf hdx⟩
    rw [derivative, hda, hdb]
    exact congrArg Except.ok (if_pos hzero.isZero)
  total := Submodule.smul_mem _ f ha.total

/-- The chain rule, for the functions with a known derivative. -/
theorem outerCall {f : String} {outer : Expr K} {v s : ℚ} (hf : outerDerivative? f a = some outer)
    (hv : (Expr.call f [a]).value R.toFunctions ρ = some v)
    (hs : outer.value R.toFunctions ρ = some s) (ha : Chain R ρ dynamic S rate a x wa) :
    Chain R ρ dynamic S rate (call f [a]) v (s • wa) where
  value := hv
  derivatives i hi := .outerCall hf hs (ha.derivatives i hi)
  total := Submodule.smul_mem _ s ha.total

/-- Where the derivative of the function is not known, a call that has derivatives is constant. -/
theorem unknownCall {f : String} {args : List (Expr K)} {v : ℚ}
    (hf : ∀ a, args = [a] → outerDerivative? f a = none)
    (hv : (Expr.call f args).value R.toFunctions ρ = some v)
    (hd : ∀ i ∈ S.insertNone, ∃ d, (Expr.call f args).derivative (chainLeaf dynamic i) = .ok d) :
    Chain R ρ dynamic S rate (call f args) v 0 where
  value := hv
  derivatives i hi := by
    obtain ⟨d, hd⟩ := hd i hi
    refine ⟨d, hd, ?_⟩
    obtain ⟨dargs, _, hcall⟩ := bind_eq_ok.mp hd
    rw [callDerivative_of_unknown hf hcall]
    exact value_zero
  total := zero_mem _

end Chain

/-! ## The chain rule -/

section chain

variable {R : Reading K ℚ} {ρ : Valuation ℚ} {dynamic : String → Bool} {S : Finset Atom}
  {rate : Atom → ℚ}

/-- The factor of the power rule has a value: with the exponent zero it is zero, whatever the lower
power is. -/
theorem exists_value_powFactor {a b : Expr K} {x y : ℚ} (hx : a.value R.toFunctions ρ = some x)
    (hy : b.value R.toFunctions ρ = some y) (h : b.simplify.isZero = true ∨
      ∃ z, (Expr.pow a (.sub b one)).value R.toFunctions ρ = some z) :
    ∃ f, (Expr.mul b (.pow a (.sub b one))).simplify.value R.toFunctions ρ = some f := by
  rcases h with hzero | ⟨z, hz⟩
  · have hfa : a.FiniteNumbers := finiteNumbers_of_value hx
    have hfb : b.FiniteNumbers := finiteNumbers_of_value hy
    have hlower : (Expr.pow a (.sub b one)).FiniteNumbers := ⟨hfa, hfb, 1, ExactScalar.toRat?_one⟩
    obtain ⟨n, hn, hn0⟩ := isZeroNumber_simplifyMul hfb.simplify hlower.simplify
      (.inl (hfb.simplify.isZeroNumber hzero))
    exact ⟨_, by rw [simplify, hn]; exact value_num hn0⟩
  · exact ⟨_, value_simplify (value_mul hy hz)⟩

/-- The expression has derivatives by time and by all atoms of `S`. -/
def HasDerivatives (dynamic : String → Bool) (S : Finset Atom) (e : Expr K) : Prop :=
  ∀ i ∈ S.insertNone, ∃ d, e.derivative (chainLeaf dynamic i) = .ok d

/-- A leaf that is no atom that moves, or one of `S`. -/
def MovesIn (dynamic : String → Bool) (S : Finset Atom) (l : Expr K) : Prop :=
  ∀ α, l.atom? = some α → α.isMoving dynamic = true → α ∈ S

/-- **The chain rule.**  An expression with derivatives by time and by all its atoms that move has
values for these, of which the first is the total of the others. -/
theorem exists_chain (hpow : R.NaturalPowers) (hS : ∀ α ∈ S, α.isMoving dynamic = true)
    (hrate : ∀ α ∈ S, ρ α.der = some (rate α)) : ∀ {e : Expr K} {v : ℚ},
      e.StaticExponents dynamic → e.ChainDefined R ρ dynamic → e.AllLeaves (MovesIn dynamic S) →
        e.HasDerivatives dynamic S → e.value R.toFunctions ρ = some v →
          ∃ w, Chain R ρ dynamic S rate e v w
  | .num m, v, _, _, _, _, hv => ⟨0, .still hpow hS hv trivial⟩
  | .sym n, v, _, _, hl, _, hv => by
      rcases hn : dynamic n with _ | _
      · exact ⟨0, .still hpow hS hv hn⟩
      · have hmoving : (⟨n, 0⟩ : Atom).isMoving dynamic = true := hn
        have hmem := hl ⟨n, 0⟩ rfl hmoving
        exact ⟨_, .atom (α := ⟨n, 0⟩) hmem hmoving hv (hrate _ hmem)⟩
  | .der a, v, _, _, hl, _, hv => by
      obtain ⟨α, hα, hv⟩ := Option.bind_eq_some_iff.mp hv
      have hder : (Expr.der a).atom? = some α.der := congrArg (Option.map Atom.der) hα
      have hmoving : α.der.isMoving dynamic = true := rfl
      have hmem := hl α.der hder hmoving
      rw [eq_expr_of_atom? hder]
      exact ⟨_, .atom hmem hmoving hv (hrate _ hmem)⟩
  | .neg a, v, he, hc, hl, hd, hv => by
      obtain ⟨x, hx, rfl⟩ := value_neg_eq_some.mp hv
      have hda : a.HasDerivatives dynamic S := fun i hi => by
        obtain ⟨d, hd⟩ := hd i hi
        obtain ⟨da, hda, _⟩ := bind_eq_ok.mp hd
        exact ⟨da, hda⟩
      obtain ⟨wa, ha⟩ := exists_chain hpow hS hrate (e := a) he hc hl hda hx
      exact ⟨_, ha.neg⟩
  | .add a b, v, he, hc, hl, hd, hv => by
      obtain ⟨x, y, hx, hy, rfl⟩ := value_add_eq_some.mp hv
      have hdab := fun i hi => exists_of_combine_eq_ok (hd i hi).choose_spec
      obtain ⟨wa, ha⟩ := exists_chain hpow hS hrate he.1 hc.1 hl.1 (fun i hi => (hdab i hi).1) hx
      obtain ⟨wb, hb⟩ := exists_chain hpow hS hrate he.2 hc.2 hl.2 (fun i hi => (hdab i hi).2) hy
      exact ⟨_, ha.add hb⟩
  | .sub a b, v, he, hc, hl, hd, hv => by
      obtain ⟨x, y, hx, hy, rfl⟩ := value_sub_eq_some.mp hv
      have hdab := fun i hi => exists_of_combine_eq_ok (hd i hi).choose_spec
      obtain ⟨wa, ha⟩ := exists_chain hpow hS hrate he.1 hc.1 hl.1 (fun i hi => (hdab i hi).1) hx
      obtain ⟨wb, hb⟩ := exists_chain hpow hS hrate he.2 hc.2 hl.2 (fun i hi => (hdab i hi).2) hy
      exact ⟨_, ha.sub hb⟩
  | .mul a b, v, he, hc, hl, hd, hv => by
      obtain ⟨x, y, hx, hy, rfl⟩ := value_mul_eq_some.mp hv
      have hdab := fun i hi => exists_of_combine_eq_ok (hd i hi).choose_spec
      obtain ⟨wa, ha⟩ := exists_chain hpow hS hrate he.1 hc.1 hl.1 (fun i hi => (hdab i hi).1) hx
      obtain ⟨wb, hb⟩ := exists_chain hpow hS hrate he.2 hc.2 hl.2 (fun i hi => (hdab i hi).2) hy
      exact ⟨_, ha.mul hb⟩
  | .div a b, v, he, hc, hl, hd, hv => by
      obtain ⟨x, y, hx, hy, hu, hv⟩ := value_div_eq_some.mp hv
      have hdab := fun i hi => exists_of_combine_eq_ok (hd i hi).choose_spec
      obtain ⟨wa, ha⟩ := exists_chain hpow hS hrate he.1 hc.1 hl.1 (fun i hi => (hdab i hi).1) hx
      obtain ⟨wb, hb⟩ := exists_chain hpow hS hrate he.2 hc.2 hl.2 (fun i hi => (hdab i hi).2) hy
      rw [eq_div_of_mul_eq hu.ne_zero hv]
      exact ⟨_, ha.div hpow hb hu.ne_zero⟩
  | .pow a b, v, he, hc, hl, hd, hv => by
      obtain ⟨x, y, hx, hy, _⟩ := value_pow_eq_some.mp hv
      by_cases hrest : a.IsStatic dynamic
      · exact ⟨0, .still hpow hS hv ⟨hrest, he.2⟩⟩
      · have hda := fun i hi => (exists_of_combine_eq_ok (hd i hi).choose_spec).1
        obtain ⟨f, hf⟩ := exists_value_powFactor hx hy (hc.2 hrest)
        obtain ⟨wa, ha⟩ := exists_chain hpow hS hrate he.1 hc.1 hl.1 hda hx
        exact ⟨_, ha.pow hpow hS hv he.2 hf⟩
  | .call f args, v, he, hc, hl, hd, hv => by
      by_cases hknown : ∃ a outer, args = [a] ∧ outerDerivative? f a = some outer
      · obtain ⟨a, outer, rfl, houter⟩ := hknown
        obtain ⟨xs, hxs, _⟩ := value_call_eq_some.mp hv
        obtain ⟨x, ys, hx, _, _⟩ := valueAll_cons_eq_some.mp hxs
        by_cases hrest : a.IsStatic dynamic
        · exact ⟨0, .still hpow hS hv ⟨hrest, trivial⟩⟩
        · have hda : a.HasDerivatives dynamic S := fun i hi => by
            obtain ⟨d, hd⟩ := hd i hi
            obtain ⟨dargs, hdargs, _⟩ := bind_eq_ok.mp hd
            obtain ⟨da, hda, _⟩ := bind_eq_ok.mp hdargs
            exact ⟨da, hda⟩
          obtain ⟨s, hs⟩ := hc.2 hrest outer houter
          obtain ⟨wa, ha⟩ := exists_chain hpow hS hrate (e := a) he.1 hc.1 hl.1 hda hx
          exact ⟨_, ha.outerCall houter hv hs⟩
      · refine ⟨0, .unknownCall (fun a hargs => ?_) hv hd⟩
        by_contra houter
        obtain ⟨outer, houter⟩ := Option.ne_none_iff_exists'.mp houter
        exact hknown ⟨a, outer, hargs, houter⟩

end chain

/-- **The time derivative is the sum of the partial derivatives times the rates.**  Let the time
derivative of an expression exist, and its partial derivative by each dynamic symbol and each time
derivative in it, and let no exponent move.  Where the expression and what the chain rule uses are
defined, all these derivatives have values, and the first is the sum of the others, each times the
value of the time derivative of its atom. -/
theorem timeDerivative_eq_sum_partials (R : Reading K ℚ) (hpow : R.NaturalPowers)
    {dynamic : String → Bool} {e d : Expr K} {partials : Atom → Expr K}
    (he : e.StaticExponents dynamic) (hd : e.timeDerivative dynamic = .ok d)
    (hpartials : ∀ α ∈ e.movingAtoms dynamic, e.diff α.expr = .ok (partials α)) (ρ : Valuation ℚ)
    {v : ℚ} (hv : e.value R.toFunctions ρ = some v) (hc : e.ChainDefined R ρ dynamic)
    {rate : Atom → ℚ} (hrate : ∀ α ∈ e.movingAtoms dynamic, ρ α.der = some (rate α)) :
    ∃ w : Atom → ℚ,
      (∀ α ∈ e.movingAtoms dynamic, (partials α).value R.toFunctions ρ = some (w α)) ∧
        d.value R.toFunctions ρ = some (∑ α ∈ e.movingAtoms dynamic, w α * rate α) := by
  have hS : ∀ α ∈ e.movingAtoms dynamic, α.isMoving dynamic = true := fun α hα =>
    (Finset.mem_filter.mp hα).2
  obtain ⟨d', hd', hsimplify⟩ := bind_eq_ok.mp hd
  cases hsimplify
  have hderivatives : e.HasDerivatives dynamic (e.movingAtoms dynamic) := by
    rintro (_ | α) hi
    · exact ⟨d', hd'⟩
    · obtain ⟨dα, hdα, _⟩ := bind_eq_ok.mp (hpartials α (Finset.some_mem_insertNone.mp hi))
      exact ⟨dα, hdα⟩
  obtain ⟨w, hw⟩ := exists_chain hpow hS hrate he hc (allLeaves_movingAtoms dynamic e) hderivatives hv
  refine ⟨fun α => w (some α), fun α hα => ?_, ?_⟩
  · exact (hw.derivatives (some α) (Finset.some_mem_insertNone.mpr hα)).value_diff (hpartials α hα)
  · obtain ⟨d'', hd'', hvalue⟩ := hw.derivatives none Finset.none_mem_insertNone
    have hsame : e.derivative (timeLeaf dynamic) = .ok d'' := hd''
    rw [hd'] at hsame
    cases hsame
    rw [hvalue, mem_totals.mp hw.total]

/-- `abs(x * der(x)) + min(k, 2) * x^3`, where `x` is `-2`, `der(x)` is `3`, its rate is `5`, and `k`
is `7`. -/
theorem timeDerivative_eq_sum_partials_of_cube :
    let x : Expr (Exact .standard) := .sym "x"
    let v : Expr (Exact .standard) := .der x
    let factor := Expr.call "min" [.sym "k", two]
    let e := add (.call "abs" [mul x v]) (mul factor (.pow x (.num ⟨some 3⟩)))
    let square := mul (.num ⟨some 3⟩) (.pow x (.num ⟨some 2⟩))
    let sign := Expr.call "sign" [mul x v]
    let d := add (mul sign (add (mul v v) (mul x (.der v)))) (mul factor (mul square v))
    let ρ : Valuation ℚ := fun α => [(⟨"x", 0⟩, -2), (⟨"x", 1⟩, 3), (⟨"x", 2⟩, 5), (⟨"k", 0⟩, 7)].lookup α
    e.timeDerivative (· == "x") = .ok d ∧ e.diff x = .ok (add (mul sign v) (mul factor square)) ∧
      e.diff v = .ok (mul sign x) ∧ ∃ w : Atom → ℚ,
        (add (mul sign v) (mul factor square)).value Reading.standard.toFunctions ρ =
            some (w ⟨"x", 0⟩) ∧
          (mul sign x).value Reading.standard.toFunctions ρ = some (w ⟨"x", 1⟩) ∧
            d.value Reading.standard.toFunctions ρ = some (w ⟨"x", 0⟩ * 3 + w ⟨"x", 1⟩ * 5) := by
  intro x v factor e square sign d ρ
  let F := Reading.standard.toFunctions
  have htime : e.timeDerivative (· == "x") = .ok d := by cbv
  have hdx : e.diff x = .ok (add (mul sign v) (mul factor square)) := by cbv
  have hdv : e.diff v = .ok (mul sign x) := by cbv
  have hatoms : e.movingAtoms (· == "x") = {⟨"x", 0⟩, ⟨"x", 1⟩} := by decide
  have hx : x.value F ρ = some (-2) := rfl
  have hv : v.value F ρ = some 3 := rfl
  have hk : (sym "k" : Expr (Exact .standard)).value F ρ = some 7 := rfl
  have hproduct : (mul x v).value F ρ = some (-2 * 3) := value_mul hx hv
  have hcall : ∀ {f : String} {z : ℚ}, F.call f [-2 * 3] = some z →
      (Expr.call f [mul x v]).value F ρ = some z := fun hz =>
    value_call_eq_some.mpr ⟨_, valueAll_cons_eq_some.mpr ⟨_, [], hproduct, rfl, rfl⟩, hz⟩
  have hfactor : factor.value F ρ = some (min 7 2) :=
    value_call_eq_some.mpr ⟨[7, 2], valueAll_eq_some.mpr (.cons hk (.cons value_two .nil)), rfl⟩
  have hcube : (Expr.pow x (.num ⟨some 3⟩)).value F ρ = some ((-2) ^ 3) :=
    value_pow hx (value_num rfl) (Functions.standard_naturalPowers (-2) 3)
  have he : e.value F ρ = some (|(-2 * 3 : ℚ)| + min 7 2 * (-2) ^ 3) :=
    value_add (hcall rfl) (value_mul hfactor hcube)
  have hexponents : e.StaticExponents (· == "x") :=
    ⟨⟨⟨trivial, trivial⟩, trivial⟩, ⟨trivial, trivial, trivial⟩, trivial, trivial⟩
  have hdefined : e.ChainDefined Reading.standard ρ (· == "x") := by
    refine ⟨⟨⟨trivial, trivial⟩, fun _ outer houter => ?_⟩, trivial, trivial, fun _ => .inr ?_⟩
    · cases houter
      exact ⟨_, hcall (f := "sign") rfl⟩
    · have hless : (Expr.sub (.num ⟨some 3⟩) one : Expr (Exact .standard)).value F ρ = some 2 :=
        (value_sub (value_num rfl) value_one).trans (congrArg some (by norm_num))
      exact ⟨_, value_pow hx hless (Functions.standard_naturalPowers (-2) 2)⟩
  let partials : Atom → Expr (Exact .standard) := fun α =>
    if α = ⟨"x", 0⟩ then add (mul sign v) (mul factor square) else mul sign x
  have hpartials : ∀ α ∈ e.movingAtoms (· == "x"), e.diff α.expr = .ok (partials α) := by
    rw [hatoms]
    simpa [partials] using ⟨hdx, hdv⟩
  have hrate : ∀ α ∈ e.movingAtoms (· == "x"), ρ α.der = some (if α = ⟨"x", 0⟩ then 3 else 5) := by
    rw [hatoms]
    intro α hα
    rcases Finset.mem_insert.mp hα with rfl | hα
    · rfl
    · rw [Finset.mem_singleton.mp hα]
      rfl
  obtain ⟨w, hw, hd⟩ := timeDerivative_eq_sum_partials Reading.standard
    Functions.standard_naturalPowers hexponents htime hpartials ρ he hdefined hrate
  rw [hatoms] at hw hd
  refine ⟨htime, hdx, hdv, w, ?_, ?_, ?_⟩
  · simpa [partials] using hw ⟨"x", 0⟩ (by simp)
  · simpa [partials] using hw ⟨"x", 1⟩ (by simp)
  · simpa using hd

end Expr

end FlatModel.Symbolic
