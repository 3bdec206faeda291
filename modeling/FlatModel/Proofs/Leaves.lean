import Mathlib.Tactic.SplitIfs
import FlatModel.Symbolic.Simplify

/-!
# The leaves of an expression

The leaves are the numbers, the symbols and the time derivatives; what stands under a time
derivative is no leaf of its own.

* `Expr.AllLeaves p` — every leaf satisfies `p`.
* `Expr.NumberClosed p`, `Expr.FoldClosed p` — `p` is kept by the folding of numbers, and by
  simplification under a time derivative.
* `Expr.Compositional p`, `Expr.Hereditary p` — `p` goes from operands to operators and back, and is
  kept by simplification under a time derivative.
* `Expr.Compositional.simplify`, `Expr.Hereditary.simplify` — simplification brings in nothing but folded
  numbers, so it keeps what is hereditary.  What holds of all leaves is so
  (`Expr.FoldClosed.hereditary`).
* `Expr.BaseIs p` — what is differentiated by time, once or several times, satisfies `p`.
* `Expr.AllDivisors p` — every divisor, also inside of calls, satisfies `p`.
-/

namespace FlatModel.Symbolic.Expr

variable {K : Type}

mutual

/-- Whether every number, symbol and time derivative of the expression satisfies `p`. -/
def AllLeaves (p : Expr K → Prop) : Expr K → Prop
  | .num x => p (.num x)
  | .sym n => p (.sym n)
  | .der a => p (.der a)
  | .neg a => a.AllLeaves p
  | .add a b => a.AllLeaves p ∧ b.AllLeaves p
  | .sub a b => a.AllLeaves p ∧ b.AllLeaves p
  | .mul a b => a.AllLeaves p ∧ b.AllLeaves p
  | .div a b => a.AllLeaves p ∧ b.AllLeaves p
  | .pow a b => a.AllLeaves p ∧ b.AllLeaves p
  | .call _ args => AllLeavesOf p args

/-- Whether every leaf of the expressions of a list satisfies `p`. -/
def AllLeavesOf (p : Expr K → Prop) : List (Expr K) → Prop
  | [] => True
  | a :: rest => a.AllLeaves p ∧ AllLeavesOf p rest

end

mutual

/-- Whether every divisor in the expression satisfies `p`. -/
def AllDivisors (p : Expr K → Prop) : Expr K → Prop
  | .num _ => True
  | .sym _ => True
  | .der _ => True
  | .neg a => a.AllDivisors p
  | .add a b => a.AllDivisors p ∧ b.AllDivisors p
  | .sub a b => a.AllDivisors p ∧ b.AllDivisors p
  | .mul a b => a.AllDivisors p ∧ b.AllDivisors p
  | .div a b => p b ∧ a.AllDivisors p ∧ b.AllDivisors p
  | .pow a b => a.AllDivisors p ∧ b.AllDivisors p
  | .call _ args => AllDivisorsOf p args

/-- Whether every divisor in the expressions of a list satisfies `p`. -/
def AllDivisorsOf (p : Expr K → Prop) : List (Expr K) → Prop
  | [] => True
  | a :: rest => a.AllDivisors p ∧ AllDivisorsOf p rest

end

mutual

/-- What holds of all leaves may be weakened. -/
theorem AllLeaves.imp {p q : Expr K → Prop} (h : ∀ l, p l → q l) :
    ∀ {e : Expr K}, e.AllLeaves p → e.AllLeaves q
  | .num _, he | .sym _, he | .der _, he => h _ he
  | .neg a, he => AllLeaves.imp (e := a) h he
  | .add a b, he | .sub a b, he | .mul a b, he | .div a b, he | .pow a b, he =>
      ⟨AllLeaves.imp (e := a) h he.1, AllLeaves.imp (e := b) h he.2⟩
  | .call _ args, he => AllLeavesOf.imp (s := args) h he

/-- What holds of all leaves of a list of expressions may be weakened. -/
theorem AllLeavesOf.imp {p q : Expr K → Prop} (h : ∀ l, p l → q l) :
    ∀ {s : List (Expr K)}, AllLeavesOf p s → AllLeavesOf q s
  | [], _ => trivial
  | a :: rest, he => ⟨AllLeaves.imp (e := a) h he.1, AllLeavesOf.imp (s := rest) h he.2⟩

end

mutual

/-- What holds of all leaves one by one holds of them together. -/
theorem AllLeaves.forall {ι : Sort*} {p : ι → Expr K → Prop} : ∀ {e : Expr K},
    (∀ i, e.AllLeaves (p i)) → e.AllLeaves fun l => ∀ i, p i l
  | .num _, he | .sym _, he | .der _, he => he
  | .neg a, he => AllLeaves.forall (e := a) he
  | .add a b, he | .sub a b, he | .mul a b, he | .div a b, he | .pow a b, he =>
      ⟨AllLeaves.forall (e := a) fun i => (he i).1, AllLeaves.forall (e := b) fun i => (he i).2⟩
  | .call _ args, he => AllLeavesOf.forall (s := args) he

/-- What holds of all leaves of a list of expressions one by one holds of them together. -/
theorem AllLeavesOf.forall {ι : Sort*} {p : ι → Expr K → Prop} : ∀ {s : List (Expr K)},
    (∀ i, AllLeavesOf (p i) s) → AllLeavesOf (fun l => ∀ i, p i l) s
  | [], _ => trivial
  | a :: rest, he =>
      ⟨AllLeaves.forall (e := a) fun i => (he i).1, AllLeavesOf.forall (s := rest) fun i => (he i).2⟩

end

/-- Two things that hold of all leaves hold of them together. -/
theorem AllLeaves.and {p q : Expr K → Prop} {e : Expr K} (hp : e.AllLeaves p)
    (hq : e.AllLeaves q) : e.AllLeaves fun l => p l ∧ q l := by
  have hboth : ∀ b : Bool, e.AllLeaves fun l => if b then p l else q l := by
    intro b
    cases b with
    | true => exact hp.imp fun _ h => h
    | false => exact hq.imp fun _ h => by simpa using h
  exact (AllLeaves.forall hboth).imp fun l h => ⟨h true, by simpa using h false⟩

/-! ## Under time derivatives -/

/-- Whether that what stands under all time derivatives satisfies `p`. -/
def BaseIs (p : Expr K → Prop) : Expr K → Prop
  | .der a => a.BaseIs p
  | e => p e

/-- What holds under all time derivatives may be weakened. -/
theorem BaseIs.imp {p q : Expr K → Prop} (h : ∀ e, p e → q e) : ∀ {e : Expr K}, e.BaseIs p →
    e.BaseIs q
  | .der a, he => BaseIs.imp (e := a) h he
  | .num _, he | .sym _, he | .neg _, he | .add _ _, he | .sub _ _, he | .mul _ _, he
  | .div _ _, he | .pow _ _, he | .call _ _, he => h _ he

variable [Scalar K] {p : Expr K → Prop} {a b : Expr K}

/-- Simplification leaves time derivatives alone if it leaves what stands under them alone. -/
theorem BaseIs.simplify_eq (h : ∀ e, p e → e.simplify = e) : ∀ {e : Expr K}, e.BaseIs p →
    e.simplify = e
  | .der a, he => congrArg der (BaseIs.simplify_eq (e := a) h he)
  | .num _, he | .sym _, he | .neg _, he | .add _ _, he | .sub _ _, he | .mul _ _, he
  | .div _ _, he | .pow _ _, he | .call _ _, he => h _ he

/-! ## Occurrence -/

mutual

/-- No leaf of an expression is an atom that does not occur in it. -/
theorem allLeaves_of_contains {atom : Expr K} : ∀ {e : Expr K}, e.contains atom = false →
    e.AllLeaves fun l => (l == atom) = false
  | .num _, h | .sym _, h | .der _, h => h
  | .neg a, h => by
      rw [contains, Bool.or_eq_false_iff] at h
      exact allLeaves_of_contains (e := a) h.2
  | .add a b, h | .sub a b, h | .mul a b, h | .div a b, h | .pow a b, h => by
      rw [contains, Bool.or_eq_false_iff, Bool.or_eq_false_iff] at h
      exact ⟨allLeaves_of_contains (e := a) h.2.1, allLeaves_of_contains (e := b) h.2.2⟩
  | .call _ args, h => by
      rw [contains, Bool.or_eq_false_iff] at h
      exact allLeavesOf_of_anyContains (s := args) h.2

/-- No leaf of expressions is an atom that does not occur in them. -/
theorem allLeavesOf_of_anyContains {atom : Expr K} : ∀ {s : List (Expr K)},
    anyContains s atom = false → AllLeavesOf (fun l => (l == atom) = false) s
  | [], _ => trivial
  | a :: rest, h => by
      rw [anyContains, Bool.or_eq_false_iff] at h
      exact ⟨allLeaves_of_contains (e := a) h.1, allLeavesOf_of_anyContains (s := rest) h.2⟩

end

/-- No leaf of an expression is one of the atoms that do not occur in it. -/
theorem allLeaves_of_containsAny {e : Expr K} {atoms : List (Expr K)}
    (h : e.containsAny atoms = false) : e.AllLeaves fun l => ∀ u ∈ atoms, (l == u) = false := by
  rw [containsAny, List.any_eq_false] at h
  have heach : ∀ u : { u // u ∈ atoms }, e.AllLeaves fun l => (l == u.val) = false :=
    fun u => allLeaves_of_contains (Bool.eq_false_iff.mpr (h u.val u.property))
  exact (AllLeaves.forall heach).imp fun l hl u hu => hl ⟨u, hu⟩

/-! ## Simplification -/

/-- A property of numbers that folding keeps. -/
structure NumberClosed (p : Expr K → Prop) : Prop where
  /-- Zero has it. -/
  zero : p zero
  /-- One has it. -/
  one : p one
  /-- Two has it. -/
  two : p two
  /-- Opposites keep it. -/
  neg : ∀ {x : K}, p (num x) → p (num (Scalar.neg x))
  /-- Sums keep it. -/
  add : ∀ {x y : K}, p (num x) → p (num y) → p (num (Scalar.add x y))
  /-- Differences keep it. -/
  sub : ∀ {x y : K}, p (num x) → p (num y) → p (num (Scalar.sub x y))
  /-- Products keep it. -/
  mul : ∀ {x y : K}, p (num x) → p (num y) → p (num (Scalar.mul x y))
  /-- Quotients keep it, unless the divisor is zero. -/
  div : ∀ {x y : K}, p (num x) → p (num y) → ¬ Scalar.isZero y = true → p (num (Scalar.div x y))
  /-- Finite powers and calls have it. -/
  finite : ∀ {x : K}, Scalar.isFinite x = true → p (num x)

/-- What is asked of no number is kept by folding. -/
theorem numberClosed_of_num (hnum : ∀ x, p (num x)) : NumberClosed p where
  zero := hnum _
  one := hnum _
  two := hnum _
  neg _ := hnum _
  add _ _ := hnum _
  sub _ _ := hnum _
  mul _ _ := hnum _
  div _ _ _ := hnum _
  finite _ := hnum _

/-- A property of leaves that the folding of numbers keeps. -/
structure FoldClosed (p : Expr K → Prop) : Prop extends NumberClosed p where
  /-- Time derivatives keep it when their operand is simplified. -/
  der : ∀ {a : Expr K}, p (der a) → p (der a.simplify)

/-- What is asked of no number is kept by folding. -/
theorem foldClosed_of_num (hnum : ∀ x, p (num x)) (hder : ∀ a, p (.der a) → p (.der a.simplify)) :
    FoldClosed p where
  toNumberClosed := numberClosed_of_num hnum
  der := hder _

/-- A property of expressions that an operator over operands has just if its operands do.  A call may
ask for more than that, if this depends on nothing but its name and the number of its arguments, and
a time derivative for anything. -/
structure Compositional (p : Expr K → Prop) : Prop extends NumberClosed p where
  /-- Of opposites. -/
  neg_iff : ∀ {a : Expr K}, p (.neg a) ↔ p a
  /-- Of sums. -/
  add_iff : ∀ {a b : Expr K}, p (.add a b) ↔ p a ∧ p b
  /-- Of differences. -/
  sub_iff : ∀ {a b : Expr K}, p (.sub a b) ↔ p a ∧ p b
  /-- Of products. -/
  mul_iff : ∀ {a b : Expr K}, p (.mul a b) ↔ p a ∧ p b
  /-- Of quotients. -/
  div_iff : ∀ {a b : Expr K}, p (.div a b) ↔ p a ∧ p b
  /-- Of powers. -/
  pow_iff : ∀ {a b : Expr K}, p (.pow a b) ↔ p a ∧ p b
  /-- The arguments of calls have it. -/
  args : ∀ {f : String} {args : List (Expr K)}, p (.call f args) → ∀ a ∈ args, p a
  /-- A call keeps it with other arguments. -/
  call : ∀ {f : String} {args args' : List (Expr K)}, p (.call f args) →
    args'.length = args.length → (∀ a ∈ args', p a) → p (.call f args')

namespace Compositional

/-- The opposite of a number has what the number has. -/
theorem negated? (hp : Compositional p) {n : K} (h : a.negated? = some n) (ha : p a) : p (num n) := by
  cases a with
  | num m =>
      rw [Expr.negated?] at h
      split at h
      · cases h
        exact hp.neg ha
      · cases h
  | _ => cases h

/-- A simplified opposite. -/
theorem simplifyNeg (hp : Compositional p) (ha : p a) : p (simplifyNeg a) := by
  cases a with
  | num n => exact hp.neg ha
  | neg c => exact hp.neg_iff.mp ha
  | sub c d => exact hp.sub_iff.mpr (hp.sub_iff.mp ha).symm
  | _ => exact hp.neg_iff.mpr ha

/-- A simplified product. -/
theorem simplifyMul (hp : Compositional p) (ha : p a) (hb : p b) : p (simplifyMul a b) := by
  fun_induction Expr.simplifyMul a b with
  | case1 m n => exact hp.mul ha hb
  | case2 => exact hp.zero
  | case3 => exact hb
  | case4 => exact ha
  | case5 => exact hp.simplifyNeg hb
  | case6 => exact hp.simplifyNeg ha
  | case7 c b _ _ _ _ _ _ ih => exact hp.simplifyNeg (ih (hp.neg_iff.mp ha) hb)
  | case8 a c _ _ _ _ _ _ _ ih => exact hp.simplifyNeg (ih ha (hp.neg_iff.mp hb))
  | case9 c d n _ _ _ _ _ _ ih =>
      obtain ⟨hc, hd⟩ := hp.mul_iff.mp ha
      exact ih (hp.mul hb hc) hd
  | case10 a n => exact hp.mul_iff.mpr ⟨hb, ha⟩
  | case11 m c d _ _ _ _ _ _ ih =>
      obtain ⟨hc, hd⟩ := hp.mul_iff.mp hb
      exact ih (hp.mul ha hc) hd
  | case12 a b => exact hp.mul_iff.mpr ⟨ha, hb⟩

/-- A simplified sum or difference. -/
theorem simplifyAdd_simplifySub (hp : Compositional p) :
    (∀ a b : Expr K, p a → p b → p (simplifyAdd a b)) ∧
    (∀ a b : Expr K, p a → p b → p (simplifySub a b)) := by
  apply simplifyAdd.mutual_induct_unfolding
    (fun a b r => p a → p b → p r)
    (fun a b r => p a → p b → p r)
  case case1 => exact fun _ _ => hp.add
  case case2 => exact fun _ _ _ _ _ hb => hb
  case case3 => exact fun _ _ _ _ _ ha _ => ha
  case case4 => exact fun _ _ _ _ _ ih ha hb => ih ha (hp.neg_iff.mp hb)
  case case5 => exact fun _ _ _ _ _ _ ih ha hb => ih hb (hp.neg_iff.mp ha)
  case case6 => exact fun _ _ _ _ _ hn _ _ _ ha hb => hp.sub_iff.mpr ⟨ha, hp.negated? hn hb⟩
  case case7 => exact fun _ _ _ _ _ _ _ _ _ ha _ => hp.simplifyMul hp.two ha
  case case8 => exact fun _ _ _ _ _ _ _ _ _ ha hb => hp.add_iff.mpr ⟨ha, hb⟩
  case case9 => exact fun _ _ => hp.sub
  case case10 => exact fun _ _ _ _ ha _ => ha
  case case11 => exact fun _ _ _ _ _ _ hb => hp.simplifyNeg hb
  case case12 => exact fun _ _ _ _ _ _ _ _ => hp.zero
  case case13 => exact fun _ _ _ _ _ _ ih ha hb => ih ha (hp.neg_iff.mp hb)
  case case14 =>
    exact fun _ _ _ _ hn _ _ _ _ ih ha hb => ih (hp.negated? hn hb) (hp.neg_iff.mp ha)
  case case15 =>
    exact fun _ _ _ _ _ hn _ _ _ _ ha hb => hp.add_iff.mpr ⟨ha, hp.negated? hn hb⟩
  case case16 => exact fun _ _ _ _ _ _ _ _ ha hb => hp.sub_iff.mpr ⟨ha, hb⟩

/-- A simplified quotient. -/
theorem simplifyDiv (hp : Compositional p) (ha : p a) (hb : p b) : p (simplifyDiv a b) := by
  fun_induction Expr.simplifyDiv a b with
  | case1 => exact hp.div_iff.mpr ⟨ha, hb⟩
  | case2 m n h => exact hp.div ha hb h
  | case3 => exact hp.zero
  | case4 => exact ha
  | case5 => exact hp.simplifyNeg ha
  | case6 => exact hp.one
  | case7 c b _ _ _ _ _ ih => exact hp.simplifyNeg (ih (hp.neg_iff.mp ha) hb)
  | case8 a c _ _ _ _ _ _ ih => exact hp.simplifyNeg (ih ha (hp.neg_iff.mp hb))
  | case9 => exact hp.div_iff.mpr ⟨ha, hb⟩

/-- A simplified power. -/
theorem simplifyPow (hp : Compositional p) (ha : p a) (hb : p b) : p (simplifyPow a b) := by
  unfold Expr.simplifyPow
  split
  · rename_i n hn
    unfold foldedPow? at hn
    split at hn
    · dsimp only at hn
      split at hn
      · rename_i hfin
        cases hn
        exact hp.finite hfin
      · cases hn
    · cases hn
  · split_ifs
    · exact hp.one
    · exact ha
    · exact hp.one
    · exact hp.pow_iff.mpr ⟨ha, hb⟩

/-- A simplified call. -/
theorem simplifyCall (hp : Compositional p) {f : String} {args : List (Expr K)}
    (h : p (.call f args)) : p (simplifyCall f args) := by
  unfold Expr.simplifyCall
  split
  · rename_i n hn
    obtain ⟨ns, _, hn⟩ := Option.bind_eq_some_iff.mp hn
    obtain ⟨z, _, hn⟩ := Option.bind_eq_some_iff.mp hn
    split at hn
    · rename_i hfin
      cases hn
      exact hp.finite hfin
    · cases hn
  · exact h

mutual

/-- **Simplification keeps a property that operators pass on**, if time derivatives keep it when their
operand is simplified; that it does so for the operand may be used. -/
theorem simplify (hp : Compositional p)
    (hder : ∀ {a : Expr K}, (p a → p a.simplify) → p (.der a) → p (.der a.simplify)) :
    ∀ {e : Expr K}, p e → p e.simplify
  | .num _, he => he
  | .sym _, he => he
  | .der a, he => hder (simplify hp hder (e := a)) he
  | .neg a, he => hp.simplifyNeg (simplify hp hder (e := a) (hp.neg_iff.mp he))
  | .add a b, he => by
      obtain ⟨ha, hb⟩ := hp.add_iff.mp he
      exact hp.simplifyAdd_simplifySub.1 _ _ (simplify hp hder ha) (simplify hp hder hb)
  | .sub a b, he => by
      obtain ⟨ha, hb⟩ := hp.sub_iff.mp he
      exact hp.simplifyAdd_simplifySub.2 _ _ (simplify hp hder ha) (simplify hp hder hb)
  | .mul a b, he => by
      obtain ⟨ha, hb⟩ := hp.mul_iff.mp he
      exact hp.simplifyMul (simplify hp hder ha) (simplify hp hder hb)
  | .div a b, he => by
      obtain ⟨ha, hb⟩ := hp.div_iff.mp he
      exact hp.simplifyDiv (simplify hp hder ha) (simplify hp hder hb)
  | .pow a b, he => by
      obtain ⟨ha, hb⟩ := hp.pow_iff.mp he
      exact hp.simplifyPow (simplify hp hder ha) (simplify hp hder hb)
  | .call _ args, he => by
      obtain ⟨hlength, hargs⟩ := simplifyAll hp hder (s := args) (hp.args he)
      exact hp.simplifyCall (hp.call he hlength hargs)

/-- Simplification keeps it in a list of expressions, and their number. -/
theorem simplifyAll (hp : Compositional p)
    (hder : ∀ {a : Expr K}, (p a → p a.simplify) → p (.der a) → p (.der a.simplify)) :
    ∀ {s : List (Expr K)}, (∀ e ∈ s, p e) →
      (simplifyAll s).length = s.length ∧ ∀ e ∈ simplifyAll s, p e
  | [], h => ⟨rfl, h⟩
  | a :: rest, h => by
      obtain ⟨ha, hrest⟩ := List.forall_mem_cons.mp h
      obtain ⟨hlength, hall⟩ := simplifyAll hp hder hrest
      exact ⟨congrArg (· + 1) hlength, List.forall_mem_cons.mpr ⟨simplify hp hder ha, hall⟩⟩

end

end Compositional

/-- A property of expressions that operators pass on and that time derivatives keep when their operand
is simplified. -/
structure Hereditary (p : Expr K → Prop) : Prop extends FoldClosed p, Compositional p

/-- **Simplification keeps a hereditary property.** -/
theorem Hereditary.simplify (hp : Hereditary p) {e : Expr K} (he : p e) : p e.simplify :=
  hp.toCompositional.simplify (fun _ => hp.der) he

omit [Scalar K] in
/-- What holds of the leaves of a list holds of those of each expression. -/
theorem allLeavesOf_iff : ∀ {s : List (Expr K)}, AllLeavesOf p s ↔ ∀ e ∈ s, e.AllLeaves p
  | [] => iff_of_true trivial (List.forall_mem_nil _)
  | _ :: _ => (and_congr_right fun _ => allLeavesOf_iff).trans List.forall_mem_cons.symm

/-- What holds of all leaves is hereditary. -/
theorem FoldClosed.hereditary (hp : FoldClosed p) : Hereditary (AllLeaves p) where
  zero := hp.zero
  one := hp.one
  two := hp.two
  neg := hp.neg
  add := hp.add
  sub := hp.sub
  mul := hp.mul
  div := hp.div
  finite := hp.finite
  der := hp.der
  neg_iff := Iff.rfl
  add_iff := Iff.rfl
  sub_iff := Iff.rfl
  mul_iff := Iff.rfl
  div_iff := Iff.rfl
  pow_iff := Iff.rfl
  args := allLeavesOf_iff.mp
  call _ _ := allLeavesOf_iff.mpr

/-- **Simplification keeps what holds of all leaves.** -/
theorem AllLeaves.simplify (hp : FoldClosed p) {e : Expr K} (he : e.AllLeaves p) :
    e.simplify.AllLeaves p :=
  hp.hereditary.simplify he

end FlatModel.Symbolic.Expr
