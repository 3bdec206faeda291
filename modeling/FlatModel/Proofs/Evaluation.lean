import FlatModel.Symbolic.Evaluation
import FlatModel.Proofs.SimplifySound

/-!
# Evaluation over exact numbers

What `Expr.eval` computes with exact numbers is the value of the expression.

* `Expr.IsAtomic` — time derivatives are taken of atoms only.
* `Expr.evalRat?` — the rational that evaluation ends with, if it ends with one.
* `Valuation.ofTexts` — the valuation of an environment, which knows atoms by their texts.
* `Expr.evalRat?_eq_value` — evaluation finds the value of every expression over atoms.
* `Expr.evalRat?_simplify` — evaluation finds the same after simplification.
-/

namespace FlatModel.Symbolic

namespace Expr

/-- A leaf that is a number or an atom. -/
def AtomLeaf {K : Type} : Expr K → Prop
  | .num _ => True
  | l => ∃ α, l.atom? = some α

/-- Time derivatives are taken of symbols and of time derivatives of symbols only. -/
def IsAtomic {K : Type} (e : Expr K) : Prop := e.AllLeaves AtomLeaf

/-- Simplification keeps time derivatives of atoms. -/
theorem foldClosed_atomLeaf {K : Type} [ExactScalar K] : FoldClosed (AtomLeaf (K := K)) :=
  foldClosed_of_num (fun _ => trivial) fun a ⟨α, hα⟩ => by
    obtain ⟨β, hβ, rfl⟩ := Option.map_eq_some_iff.mp hα
    exact ⟨β.der, by rw [simplify_of_atom? hβ]; exact hα⟩

end Expr

variable {F : Functions ℚ}

/-! ## Rationals of results -/

/-- The rational a computation ends with, if it does not fail and its result is defined. -/
def Exact.ofResult (r : Except SymbolicError (Exact F)) : Option ℚ := r.toOption.bind Exact.toRat?

/-- The rational of a computation with two operands. -/
theorem Exact.ofResult_lift₂ (f : ℚ → ℚ → Option ℚ) (r s : Except SymbolicError (Exact F)) :
    Exact.ofResult (do let x ← r; let y ← s; return Exact.lift₂ f x y) =
      (Exact.ofResult r).bind fun a => (Exact.ofResult s).bind fun b => f a b := by
  rcases r with _ | ⟨_ | a⟩
  · rfl
  · rcases s with _ | y <;> rfl
  · rcases s with _ | ⟨_ | b⟩ <;> rfl

/-- The valuation of an environment: an atom is known by its text. -/
def Valuation.ofTexts (env : String → Option (Exact F)) : Valuation ℚ :=
  fun α => (env (α.expr : Expr (Exact F)).text).bind Exact.toRat?

namespace Expr

/-- The rational that an expression evaluates to. -/
def evalRat? (env : String → Option (Exact F)) (e : Expr (Exact F)) : Option ℚ :=
  Exact.ofResult (e.eval env)

/-- The rationals that expressions evaluate to. -/
def evalRats? (env : String → Option (Exact F)) (s : List (Expr (Exact F))) : Option (List ℚ) :=
  (evalAll env s).toOption.bind fun xs => xs.mapM Exact.toRat?

variable {env : String → Option (Exact F)}

/-- The rational that a looked up atom has. -/
theorem ofResult_lookup (name : String) :
    Exact.ofResult (lookup env name) = (env name).bind Exact.toRat? := by
  unfold lookup
  cases env name <;> rfl

/-- The rational of a call is that of the function at the rationals of the arguments. -/
theorem ofResult_applyCall (f : String) (xs : List (Exact F)) :
    Exact.ofResult (applyCall f xs) = (xs.mapM Exact.toRat?).bind (F.call f) := by
  have hcall : Scalar.call? f xs =
      ((xs.mapM Exact.toRat?).bind (F.call f)).map fun a => (⟨some a⟩ : Exact F) := rfl
  rw [applyCall, hcall]
  cases (xs.mapM Exact.toRat?).bind (F.call f) <;> rfl

/-- Among rationals, a quotient is undefined only if the divisor is zero. -/
theorem div_eq_quotient (a b : ℚ) : (if b = 0 then none else some (a / b)) = quotient a b := by
  by_cases hb : b = 0
  · rw [if_pos hb]
    symm
    rw [Option.eq_none_iff_forall_ne_some]
    intro z hz
    exact (quotient_eq_some_iff_div.mp hz).1 hb
  · rw [if_neg hb, quotient_of_ne_zero hb]

/-- Evaluation of an atom looks up its text. -/
theorem evalRat?_of_atom? {e : Expr (Exact F)} {α : Atom} (h : e.atom? = some α) :
    e.evalRat? env = Valuation.ofTexts env α := by
  rw [Valuation.ofTexts, ← eq_expr_of_atom? h]
  cases e with
  | sym n =>
      have htext : (sym n : Expr (Exact F)).text = n := String.ofList_toList
      rw [htext]
      exact ofResult_lookup n
  | der a => exact ofResult_lookup _
  | _ => cases h

mutual

/-- **Evaluation over exact numbers finds the value of the expression.** -/
theorem evalRat?_eq_value : ∀ {e : Expr (Exact F)}, e.IsAtomic →
    e.evalRat? env = e.value F (Valuation.ofTexts env)
  | .num x, _ => by
      show x.toRat? = x.toRat?.map (algebraMap ℚ ℚ)
      cases x.toRat? <;> rfl
  | .sym n, _ => evalRat?_of_atom? rfl
  | .der a, ⟨α, hα⟩ => by
      rw [evalRat?_of_atom? hα, eq_expr_of_atom? hα, value_atom]
  | .neg a, he => by
      rw [value, ← evalRat?_eq_value (e := a) he, evalRat?, evalRat?, eval]
      rcases a.eval env with _ | ⟨_ | x⟩ <;> rfl
  | .add a b, he => by
      rw [value, ← evalRat?_eq_value (e := a) he.1, ← evalRat?_eq_value (e := b) he.2]
      exact Exact.ofResult_lift₂ (fun x y => some (x + y)) _ _
  | .sub a b, he => by
      rw [value, ← evalRat?_eq_value (e := a) he.1, ← evalRat?_eq_value (e := b) he.2]
      exact Exact.ofResult_lift₂ (fun x y => some (x - y)) _ _
  | .mul a b, he => by
      rw [value, ← evalRat?_eq_value (e := a) he.1, ← evalRat?_eq_value (e := b) he.2]
      exact Exact.ofResult_lift₂ (fun x y => some (x * y)) _ _
  | .div a b, he => by
      rw [value, ← evalRat?_eq_value (e := a) he.1, ← evalRat?_eq_value (e := b) he.2]
      simp only [← div_eq_quotient]
      exact Exact.ofResult_lift₂ (fun x y => if y = 0 then none else some (x / y)) _ _
  | .pow a b, he => by
      rw [value, ← evalRat?_eq_value (e := a) he.1, ← evalRat?_eq_value (e := b) he.2]
      exact Exact.ofResult_lift₂ F.pow _ _
  | .call f args, he => by
      rw [value, ← evalRats?_eq_valueAll (s := args) he, evalRat?, evalRats?, eval]
      rcases evalAll env args with _ | xs
      · rfl
      · exact ofResult_applyCall f xs

/-- Evaluation over exact numbers finds the values of the expressions of a list. -/
theorem evalRats?_eq_valueAll : ∀ {s : List (Expr (Exact F))}, AllLeavesOf AtomLeaf s →
    evalRats? env s = valueAll F (Valuation.ofTexts env) s
  | [], _ => rfl
  | a :: rest, he => by
      rw [valueAll, ← evalRat?_eq_value (e := a) he.1, ← evalRats?_eq_valueAll (s := rest) he.2,
        evalRats?, evalRats?, evalRat?, evalAll]
      rcases a.eval env with _ | ⟨_ | x⟩
      · rfl
      · rcases evalAll env rest with _ | xs <;> rfl
      · rcases evalAll env rest with _ | xs
        · rfl
        · exact List.mapM_cons

end

/-- **What evaluates to a rational does so after simplification.** -/
theorem evalRat?_simplify (hlaws : F.PowerLaws) {e : Expr (Exact F)} (he : e.IsAtomic) {v : ℚ}
    (hv : e.evalRat? env = some v) : e.simplify.evalRat? env = some v := by
  rw [evalRat?_eq_value he] at hv
  rw [evalRat?_eq_value (AllLeaves.simplify foldClosed_atomLeaf he)]
  exact value_simplify (R := Exact.reading F hlaws) hv

end Expr

end FlatModel.Symbolic
