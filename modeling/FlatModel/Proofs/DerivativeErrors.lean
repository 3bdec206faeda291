import FlatModel.Proofs.Except
import FlatModel.Proofs.Leaves
import FlatModel.Symbolic.Derivative

/-!
# Derivatives that do not exist

Differentiation stops at a call for whose function there is no rule, and nowhere else.

* `Expr.HasCall` — a call stands somewhere in an expression.
* `Expr.HasCall.allLeaves`, `Expr.HasCall.allDivisors` — what holds of all leaves or divisors of the
  expression holds of those of the arguments.
* `Expr.exists_call_of_error` — the call at which differentiation stops; some argument of it has a
  derivative other than zero.
-/

namespace FlatModel.Symbolic.Expr

variable {K : Type}

/-! ## Calls -/

mutual

/-- Whether the call of `f` with these arguments stands in the expression, time derivatives left
aside. -/
def HasCall (f : String) (args : List (Expr K)) : Expr K → Prop
  | .num _ => False
  | .sym _ => False
  | .der _ => False
  | .neg a => a.HasCall f args
  | .add a b => a.HasCall f args ∨ b.HasCall f args
  | .sub a b => a.HasCall f args ∨ b.HasCall f args
  | .mul a b => a.HasCall f args ∨ b.HasCall f args
  | .div a b => a.HasCall f args ∨ b.HasCall f args
  | .pow a b => a.HasCall f args ∨ b.HasCall f args
  | .call g as => (g = f ∧ as = args) ∨ AnyHasCall f args as

/-- Whether the call stands in an expression of a list. -/
def AnyHasCall (f : String) (args : List (Expr K)) : List (Expr K) → Prop
  | [] => False
  | a :: rest => a.HasCall f args ∨ AnyHasCall f args rest

end

section parts

variable {p : Expr K → Prop} {f : String} {args : List (Expr K)}

mutual

/-- The leaves of arguments are leaves of the expression. -/
theorem HasCall.allLeaves : ∀ {e : Expr K}, e.HasCall f args → e.AllLeaves p → AllLeavesOf p args
  | .num _, h, _ | .sym _, h, _ | .der _, h, _ => h.elim
  | .neg a, h, hp => HasCall.allLeaves (e := a) h hp
  | .add a b, h, hp | .sub a b, h, hp | .mul a b, h, hp | .div a b, h, hp | .pow a b, h, hp =>
      h.elim (fun h => HasCall.allLeaves (e := a) h hp.1)
        fun h => HasCall.allLeaves (e := b) h hp.2
  | .call _ as, h, hp => by
      rcases h with ⟨_, rfl⟩ | h
      · exact hp
      · exact AnyHasCall.allLeavesOf (s := as) h hp

/-- The leaves of arguments are leaves of the expressions. -/
theorem AnyHasCall.allLeavesOf : ∀ {s : List (Expr K)}, AnyHasCall f args s → AllLeavesOf p s →
    AllLeavesOf p args
  | [], h, _ => h.elim
  | a :: rest, h, hp => h.elim (fun h => HasCall.allLeaves (e := a) h hp.1)
      fun h => AnyHasCall.allLeavesOf (s := rest) h hp.2

end

mutual

/-- The divisors in arguments are divisors in the expression. -/
theorem HasCall.allDivisors : ∀ {e : Expr K}, e.HasCall f args → e.AllDivisors p →
    AllDivisorsOf p args
  | .num _, h, _ | .sym _, h, _ | .der _, h, _ => h.elim
  | .neg a, h, hp => HasCall.allDivisors (e := a) h hp
  | .add a b, h, hp | .sub a b, h, hp | .mul a b, h, hp | .pow a b, h, hp =>
      h.elim (fun h => HasCall.allDivisors (e := a) h hp.1)
        fun h => HasCall.allDivisors (e := b) h hp.2
  | .div a b, h, hp =>
      h.elim (fun h => HasCall.allDivisors (e := a) h hp.2.1)
        fun h => HasCall.allDivisors (e := b) h hp.2.2
  | .call _ as, h, hp => by
      rcases h with ⟨_, rfl⟩ | h
      · exact hp
      · exact AnyHasCall.allDivisorsOf (s := as) h hp

/-- The divisors in arguments are divisors in the expressions. -/
theorem AnyHasCall.allDivisorsOf : ∀ {s : List (Expr K)}, AnyHasCall f args s →
    AllDivisorsOf p s → AllDivisorsOf p args
  | [], h, _ => h.elim
  | a :: rest, h, hp => h.elim (fun h => HasCall.allDivisors (e := a) h hp.1)
      fun h => AnyHasCall.allDivisorsOf (s := rest) h hp.2

end

end parts

/-! ## Errors -/

variable [Scalar K] {leaf : Expr K → Expr K} {err : SymbolicError}

/-- A call cannot be differentiated only if the derivative of some argument is not zero. -/
theorem callDerivative_eq_error {f : String} {args dargs : List (Expr K)}
    (h : callDerivative f args dargs = .error err) :
    err = .notDifferentiable f ∧ ∃ d ∈ dargs, d.isZero = false := by
  unfold callDerivative at h
  split at h
  · cases h
  · rename_i hall
    rw [List.all_eq_true, not_forall] at hall
    obtain ⟨d, hd⟩ := hall
    rw [Classical.not_imp, Bool.not_eq_true] at hd
    refine ⟨?_, d, hd⟩
    split at h
    · split at h
      · cases h
      · cases h
        rfl
    · cases h
      rfl

mutual

/-- **Differentiation fails only at a call**, and only if an argument of it has a derivative other
than zero. -/
theorem exists_call_of_error : ∀ {e : Expr K}, e.derivative leaf = .error err →
    ∃ f args dargs, err = .notDifferentiable f ∧ e.HasCall f args ∧
      derivativeAll leaf args = .ok dargs ∧ ∃ d ∈ dargs, d.isZero = false
  | .num _, h | .sym _, h | .der _, h => nomatch h
  | .neg a, h => by
      rcases bind_eq_error.mp h with h | ⟨_, _, h⟩
      · exact exists_call_of_error (e := a) h
      · cases h
  | .add a b, h | .sub a b, h | .mul a b, h | .div a b, h | .pow a b, h => by
      rcases combine_eq_error h with h | h
      · obtain ⟨f, args, dargs, herr, hcall, hfound⟩ := exists_call_of_error (e := a) h
        exact ⟨f, args, dargs, herr, .inl hcall, hfound⟩
      · obtain ⟨f, args, dargs, herr, hcall, hfound⟩ := exists_call_of_error (e := b) h
        exact ⟨f, args, dargs, herr, .inr hcall, hfound⟩
  | .call g as, h => by
      rcases bind_eq_error.mp h with h | ⟨dargs, hdargs, h⟩
      · obtain ⟨f, args, dargs, herr, hcall, hfound⟩ := exists_call_of_errorAll (s := as) h
        exact ⟨f, args, dargs, herr, .inr hcall, hfound⟩
      · obtain ⟨herr, hvaries⟩ := callDerivative_eq_error h
        exact ⟨g, as, dargs, herr, .inl ⟨rfl, rfl⟩, hdargs, hvaries⟩

/-- Differentiation of expressions fails only at a call. -/
theorem exists_call_of_errorAll : ∀ {s : List (Expr K)}, derivativeAll leaf s = .error err →
    ∃ f args dargs, err = .notDifferentiable f ∧ AnyHasCall f args s ∧
      derivativeAll leaf args = .ok dargs ∧ ∃ d ∈ dargs, d.isZero = false
  | [], h => nomatch h
  | a :: rest, h => by
      rcases bind_eq_error.mp h with h | ⟨_, _, h⟩
      · obtain ⟨f, args, dargs, herr, hcall, hfound⟩ := exists_call_of_error (e := a) h
        exact ⟨f, args, dargs, herr, .inl hcall, hfound⟩
      · rcases bind_eq_error.mp h with h | ⟨_, _, h⟩
        · obtain ⟨f, args, dargs, herr, hcall, hfound⟩ := exists_call_of_errorAll (s := rest) h
          exact ⟨f, args, dargs, herr, .inr hcall, hfound⟩
        · cases h

end

/-- Simplification of the derivative does not fail. -/
theorem derivative_eq_error {e : Expr K}
    (h : (do let d ← e.derivative leaf; return d.simplify) = Except.error err) :
    e.derivative leaf = .error err := by
  rcases bind_eq_error.mp h with h | ⟨d, _, h⟩
  · exact h
  · cases h

end FlatModel.Symbolic.Expr
