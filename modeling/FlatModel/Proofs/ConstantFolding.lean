import FlatModel.Symbolic.Simplify
import FlatModel.Proofs.EvaluatedNames
import FlatModel.Proofs.NormalForm

/-!
# Constant expressions fold

An expression in which nothing is named simplifies to one number, and it is the number that
evaluation finds, in every digit and with its sign: operands that are numbers are folded before any
other rule is tried, and folding performs the operations of evaluation in their order.

* `Foldable` — what may not occur among the parts of an expression: names, divisors that are zero,
  and powers and calls whose values are not finite.
* `simplifyAdd_num` and its like — one operator over numbers.
* `Expr.simplify_eq_num`, `Expr.simplifyAll_eq_nums` — foldable expressions simplify to their
  values.
* `Expr.simplify_of_constant` — the same, whatever values names have.
-/

namespace FlatModel.Symbolic.Expr

variable {K : Type} [Scalar K]

/-! ## Parts -/

/-- Nothing among the parts is named, no divisor is zero, and powers and calls are finite.  Sums,
products and quotients need not be. -/
structure Foldable (env : String → Option K) (parts : List (Expr K)) : Prop where
  /-- There are no symbols. -/
  sym : ∀ n, .sym n ∉ parts
  /-- There are no time derivatives. -/
  der : ∀ a, .der a ∉ parts
  /-- The value of a divisor is not zero, be it with or without a sign. -/
  div : ∀ a b y, .div a b ∈ parts → b.eval env = .ok y → Scalar.isZero y = false
  /-- The value of a power is finite. -/
  pow : ∀ a b v, .pow a b ∈ parts → (Expr.pow a b).eval env = .ok v → Scalar.isFinite v = true
  /-- The value of a call is finite. -/
  call : ∀ f args v, .call f args ∈ parts → (Expr.call f args).eval env = .ok v →
    Scalar.isFinite v = true

variable {env : String → Option K}

/-- Fewer parts are foldable, too. -/
theorem Foldable.mono {parts parts' : List (Expr K)} (h : Foldable env parts)
    (hsub : parts' ⊆ parts) : Foldable env parts' where
  sym n hn := h.sym n (hsub hn)
  der a ha := h.der a (hsub ha)
  div a b y hab := h.div a b y (hsub hab)
  pow a b v hab := h.pow a b v (hsub hab)
  call f args v hargs := h.call f args v (hsub hargs)

/-- The parts of the operands of a binary operator. -/
theorem Foldable.operands {e a b : Expr K} (h : Foldable env (e :: (a.parts ++ b.parts))) :
    Foldable env a.parts ∧ Foldable env b.parts :=
  ⟨h.mono (List.subset_cons_of_subset _ (List.subset_append_left _ _)),
    h.mono (List.subset_cons_of_subset _ (List.subset_append_right _ _))⟩

/-! ## One operator over numbers -/

@[simp] theorem simplifyAdd_num (x y : K) :
    simplifyAdd (.num x) (.num y) = .num (Scalar.add x y) := by
  rw [simplifyAdd]

@[simp] theorem simplifySub_num (x y : K) :
    simplifySub (.num x) (.num y) = .num (Scalar.sub x y) := by
  rw [simplifySub]

@[simp] theorem simplifyMul_num (x y : K) :
    simplifyMul (.num x) (.num y) = .num (Scalar.mul x y) := by
  rw [simplifyMul]

theorem simplifyDiv_num {x y : K} (hy : Scalar.isZero y = false) :
    simplifyDiv (.num x) (.num y) = .num (Scalar.div x y) := by
  rw [simplifyDiv, hy, if_neg Bool.false_ne_true]

theorem simplifyPow_num {x y : K} (hfinite : Scalar.isFinite (Scalar.pow x y) = true) :
    simplifyPow (.num x) (.num y) = .num (Scalar.pow x y) := by
  rw [simplifyPow, foldedPow?, if_pos hfinite]

theorem simplifyCall_nums {f : String} {xs : List K} {v : K} (hv : Scalar.call? f xs = some v)
    (hfinite : Scalar.isFinite v = true) : simplifyCall f (xs.map .num) = .num v := by
  have hnumbers : (xs.map num).mapM number? = some xs := by
    clear hv
    induction xs with
    | nil => rfl
    | cons x rest ih => simp [number?, ih]
  rw [simplifyCall, foldedCall?, hnumbers]
  simp [hv, hfinite]

/-! ## Whole expressions -/

-- By recursion over the tree.  Simplified operands are numbers, so of the rules of each operator the
-- first one fits, and no other rule is ever tried.
mutual

/-- **Foldable expressions simplify to their values.** -/
theorem simplify_eq_num : ∀ {e : Expr K} {v : K}, Foldable env e.parts → e.eval env = .ok v →
    e.simplify = .num v
  | .num _, _, _, h => by
      cases h
      rfl
  | .sym n, _, hfold, _ => absurd List.mem_cons_self (hfold.sym n)
  | .der a, _, hfold, _ => absurd List.mem_cons_self (hfold.der a)
  | .neg a, _, hfold, h => by
      obtain ⟨x, hx, h⟩ := bind_eq_ok.mp h
      cases h
      rw [simplify, simplify_eq_num (hfold.mono (List.subset_cons_self _ _)) hx]
      rfl
  | .add a b, _, hfold, h => by
      obtain ⟨x, y, hx, hy, rfl⟩ := results_of_combine_eq_ok h
      rw [simplify, simplify_eq_num hfold.operands.1 hx, simplify_eq_num hfold.operands.2 hy,
        simplifyAdd_num]
  | .sub a b, _, hfold, h => by
      obtain ⟨x, y, hx, hy, rfl⟩ := results_of_combine_eq_ok h
      rw [simplify, simplify_eq_num hfold.operands.1 hx, simplify_eq_num hfold.operands.2 hy,
        simplifySub_num]
  | .mul a b, _, hfold, h => by
      obtain ⟨x, y, hx, hy, rfl⟩ := results_of_combine_eq_ok h
      rw [simplify, simplify_eq_num hfold.operands.1 hx, simplify_eq_num hfold.operands.2 hy,
        simplifyMul_num]
  | .div a b, _, hfold, h => by
      obtain ⟨x, y, hx, hy, rfl⟩ := results_of_combine_eq_ok h
      have hnonzero := hfold.div a b y List.mem_cons_self hy
      rw [simplify, simplify_eq_num hfold.operands.1 hx, simplify_eq_num hfold.operands.2 hy,
        simplifyDiv_num hnonzero]
  | .pow a b, v, hfold, h => by
      have hfinite := hfold.pow a b v List.mem_cons_self h
      obtain ⟨x, y, hx, hy, rfl⟩ := results_of_combine_eq_ok h
      rw [simplify, simplify_eq_num hfold.operands.1 hx, simplify_eq_num hfold.operands.2 hy,
        simplifyPow_num hfinite]
  | .call f args, v, hfold, h => by
      have hfinite := hfold.call f args v List.mem_cons_self h
      obtain ⟨xs, hxs, h⟩ := bind_eq_ok.mp h
      rw [simplify, simplifyAll_eq_nums (hfold.mono (List.subset_cons_self _ _)) hxs,
        simplifyCall_nums (applyCall_eq_ok.mp h) hfinite]

/-- The expressions of a list simplify to their values. -/
theorem simplifyAll_eq_nums : ∀ {s : List (Expr K)} {vs : List K}, Foldable env (partsAll s) →
    evalAll env s = .ok vs → simplifyAll s = vs.map .num
  | [], _, _, h => by
      cases h
      rfl
  | a :: rest, _, hfold, h => by
      obtain ⟨x, xs, hx, hxs, rfl⟩ := results_of_combine_eq_ok h
      rw [simplifyAll, simplify_eq_num (hfold.mono (List.subset_append_left _ _)) hx,
        simplifyAll_eq_nums (hfold.mono (List.subset_append_right _ _)) hxs, List.map_cons]

end

mutual

/-- What has neither symbols nor time derivatives looks up no names. -/
theorem Foldable.names_eq_nil : ∀ {e : Expr K}, Foldable env e.parts → e.names = []
  | .num _, _ => rfl
  | .sym n, h => absurd List.mem_cons_self (h.sym n)
  | .der a, h => absurd List.mem_cons_self (h.der a)
  | .neg a, h => (h.mono (List.subset_cons_self _ _)).names_eq_nil
  | .add a b, h | .sub a b, h | .mul a b, h | .div a b, h | .pow a b, h => by
      rw [names, h.operands.1.names_eq_nil, h.operands.2.names_eq_nil, List.append_nil]
  | .call _ args, h => (h.mono (List.subset_cons_self _ _)).namesAll_eq_nil

/-- Expressions without symbols and time derivatives look up no names. -/
theorem Foldable.namesAll_eq_nil : ∀ {s : List (Expr K)}, Foldable env (partsAll s) →
    namesAll s = []
  | [], _ => rfl
  | a :: rest, h => by
      rw [namesAll, (h.mono (List.subset_append_left _ _)).names_eq_nil,
        (h.mono (List.subset_append_right _ _)).namesAll_eq_nil, List.append_nil]

end

/-- **Constant folding is complete and exact.**  An expression without symbols and time derivatives
that has a value, in which no divisor is zero and the values of powers and calls are finite,
simplifies to that very value.  It has this value whatever values names have. -/
theorem simplify_of_constant {e : Expr K} {v : K} (hfold : Foldable env e.parts)
    (hv : e.eval env = .ok v) :
    e.simplify = .num v ∧ ∀ env' : String → Option K, e.eval env' = .ok v := by
  refine ⟨simplify_eq_num hfold hv, fun env' => ?_⟩
  rw [← hv]
  apply eval_congr
  intro n hn
  rw [hfold.names_eq_nil] at hn
  cases hn

/-! ### An overflow on the way -/

/-- `max(1e308 * 10 - 1e308 * 10, 3) / 2`: the products are infinite and their difference is
undefined. -/
def overflowing : Expr Float :=
  let product := Expr.mul (.num 1e308) (.num 10.0)
  .div (.call "max" [.sub product product, .num 3.0]) (.num 2.0)

/-- The value of the maximum. -/
theorem max_overflowing : Double.max (1e308 * 10.0 - 1e308 * 10.0) 3.0 = 3.0 :=
  Float.toBits_inj.mp (by decide +kernel)

/-- The expression folds to three halves. -/
theorem simplify_overflowing :
    (1e308 * 10.0 : Float).isFinite = false ∧ (1e308 * 10.0 - 1e308 * 10.0 : Float).isNaN = true ∧
      overflowing.simplify = .num 1.5 ∧
        ∀ env : String → Option Float, overflowing.eval env = .ok 1.5 := by
  have hmax : (Expr.call "max" [.sub (.mul (.num 1e308) (.num 10.0))
      (.mul (.num 1e308) (.num 10.0)), .num 3.0] : Expr Float).eval (fun _ => none) = .ok 3.0 :=
    congrArg Except.ok max_overflowing
  have hvalue : overflowing.eval (fun _ => none) = .ok 1.5 := by
    have hhalf : (3.0 / 2.0 : Float) = 1.5 := Float.toBits_inj.mp (by decide +kernel)
    rw [← hhalf]
    exact combine_eq_ok hmax rfl
  have hfold : Foldable (fun _ => none) overflowing.parts := by
    constructor
    · simp [overflowing, parts, partsAll]
    · simp [overflowing, parts, partsAll]
    · intro a b y hab hy
      simp only [overflowing, parts, partsAll, List.cons_append, List.nil_append, List.append_nil,
        List.mem_cons, div.injEq, reduceCtorEq, List.not_mem_nil, or_self, or_false] at hab
      obtain ⟨rfl, rfl⟩ := hab
      cases hy
      decide +kernel
    · simp [overflowing, parts, partsAll]
    · intro f args v hcall hv
      simp only [overflowing, parts, partsAll, List.cons_append, List.nil_append, List.append_nil,
        List.mem_cons, reduceCtorEq, call.injEq, List.not_mem_nil, or_self, or_false,
        false_or] at hcall
      obtain ⟨rfl, rfl⟩ := hcall
      rw [hmax] at hv
      cases hv
      decide +kernel
  refine ⟨by decide +kernel, by decide +kernel, ?_⟩
  exact simplify_of_constant hfold hvalue

end FlatModel.Symbolic.Expr
