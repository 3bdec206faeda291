import FlatModel.Proofs.DerivativeErrors
import FlatModel.Symbolic.Evaluation

/-!
# What evaluation needs

Evaluation looks up names and calls functions.  It depends on the values of the names only, and it
fails just where one of them has no value or a function is not known.

* `Expr.names` — the names that are looked up.
* `Expr.eval_congr` — values that agree on these names give one value.
* `Expr.Lacks` — a name or a function without value; `Expr.lacks_of_eval_eq_error`,
  `Expr.Lacks.eval_ne_ok` — evaluation fails just there.
* `Scalar.ByArity` — whether a function is known depends on its name and the number of arguments;
  `Double.byArity` — doubles are such.
-/

namespace FlatModel.Symbolic

/-- Whether a function has a value depends on its name and the number of arguments only. -/
def Scalar.ByArity (K : Type) [Scalar K] : Prop :=
  ∀ (f : String) (xs ys : List K), xs.length = ys.length →
    Scalar.call? f xs = none → Scalar.call? f ys = none

/-- **Doubles have functions by name and number of arguments.** -/
theorem Double.byArity : Scalar.ByArity Float := by
  intro f xs ys hlength hnone
  change call? f xs = none at hnone
  change call? f ys = none
  match xs, ys, hlength with
  | [], [], _ => rfl
  | [x], [y], _ =>
      rw [call?, Option.map_eq_none_iff] at hnone
      rw [call?, hnone, Option.map_none]
  | [x, x'], [y, y'], _ =>
      rw [call?, Option.map_eq_none_iff] at hnone
      rw [call?, hnone, Option.map_none]
  | _ :: _ :: _ :: _, _ :: _ :: _ :: _, _ => rfl

namespace Expr

variable {K : Type} [Scalar K]

/-! ## Names -/

mutual

/-- The names that evaluation looks up, from left to right: those of symbols and the texts of time
derivatives. -/
def names : Expr K → List String
  | .num _ => []
  | .sym n => [n]
  | .der a => [(Expr.der a).text]
  | .neg a => a.names
  | .add a b => a.names ++ b.names
  | .sub a b => a.names ++ b.names
  | .mul a b => a.names ++ b.names
  | .div a b => a.names ++ b.names
  | .pow a b => a.names ++ b.names
  | .call _ args => namesAll args

/-- The names that evaluation of the expressions of a list looks up. -/
def namesAll : List (Expr K) → List String
  | [] => []
  | a :: rest => a.names ++ namesAll rest

end

variable {env env' : String → Option K}

mutual

/-- **Only the values of the names count.** -/
theorem eval_congr : ∀ {e : Expr K}, (∀ n ∈ e.names, env n = env' n) → e.eval env = e.eval env'
  | .num _, _ => rfl
  | .sym n, h => by rw [eval, eval, lookup, lookup, h n (List.mem_singleton_self n)]
  | .der a, h => by rw [eval, eval, lookup, lookup, h _ (List.mem_singleton_self _)]
  | .neg a, h => by rw [eval, eval, eval_congr (e := a) h]
  | .add a b, h | .sub a b, h | .mul a b, h | .div a b, h | .pow a b, h => by
      obtain ⟨ha, hb⟩ := List.forall_mem_append.mp h
      rw [eval, eval, eval_congr ha, eval_congr hb]
  | .call _ args, h => by rw [eval, eval, evalAll_congr (s := args) h]

/-- Only the values of the names of the expressions of a list count. -/
theorem evalAll_congr : ∀ {s : List (Expr K)}, (∀ n ∈ namesAll s, env n = env' n) →
    evalAll env s = evalAll env' s
  | [], _ => rfl
  | a :: rest, h => by
      obtain ⟨ha, hrest⟩ := List.forall_mem_append.mp h
      rw [evalAll, evalAll, eval_congr ha, evalAll_congr hrest]

end

omit [Scalar K] in
/-- What is looked up successfully has a value. -/
theorem lookup_eq_ok {n : String} {v : K} : lookup env n = .ok v ↔ env n = some v := by
  unfold lookup
  cases env n <;> simp

omit [Scalar K] in
/-- What is looked up in vain has no value. -/
theorem lookup_eq_error {n : String} {err : SymbolicError} :
    lookup env n = .error err ↔ env n = none ∧ err = .unboundSymbol n := by
  unfold lookup
  cases env n <;> simp [eq_comm]

/-- What is called successfully has a value. -/
theorem applyCall_eq_ok {f : String} {values : List K} {v : K} :
    applyCall f values = .ok v ↔ Scalar.call? f values = some v := by
  unfold applyCall
  cases Scalar.call? f values <;> simp

mutual

/-- If there is a value, all names have one. -/
theorem bound_of_eval : ∀ {e : Expr K} {v : K}, e.eval env = .ok v →
    ∀ n ∈ e.names, ∃ w, env n = some w
  | .num _, _, _, _, hn => nomatch hn
  | .sym _, v, h, n, hn => by
      cases List.mem_singleton.mp hn
      exact ⟨v, lookup_eq_ok.mp h⟩
  | .der _, v, h, n, hn => by
      cases List.mem_singleton.mp hn
      exact ⟨v, lookup_eq_ok.mp h⟩
  | .neg a, _, h, n, hn => by
      obtain ⟨x, hx, -⟩ := bind_eq_ok.mp h
      exact bound_of_eval (e := a) hx n hn
  | .add a b, _, h, n, hn | .sub a b, _, h, n, hn | .mul a b, _, h, n, hn | .div a b, _, h, n, hn
  | .pow a b, _, h, n, hn => by
      obtain ⟨x, y, hx, hy, -⟩ := results_of_combine_eq_ok h
      rcases List.mem_append.mp hn with hn | hn
      · exact bound_of_eval (e := a) hx n hn
      · exact bound_of_eval (e := b) hy n hn
  | .call _ args, _, h, n, hn => by
      obtain ⟨xs, hxs, -⟩ := bind_eq_ok.mp h
      exact bound_of_evalAll (s := args) hxs n hn

/-- If there are values, all names have one. -/
theorem bound_of_evalAll : ∀ {s : List (Expr K)} {vs : List K}, evalAll env s = .ok vs →
    ∀ n ∈ namesAll s, ∃ w, env n = some w
  | [], _, _, _, hn => nomatch hn
  | a :: rest, _, h, n, hn => by
      obtain ⟨x, xs, hx, hxs, -⟩ := results_of_combine_eq_ok h
      rcases List.mem_append.mp hn with hn | hn
      · exact bound_of_eval hx n hn
      · exact bound_of_evalAll hxs n hn

end

/-- **More values do not change a value.** -/
theorem eval_mono {e : Expr K} {v : K} (henv : ∀ n w, env n = some w → env' n = some w)
    (h : e.eval env = .ok v) : e.eval env' = .ok v := by
  rw [← h]
  symm
  apply eval_congr
  intro n hn
  obtain ⟨w, hw⟩ := bound_of_eval h n hn
  rw [hw, henv n w hw]

/-- Every expression of a list has one value. -/
theorem length_evalAll : ∀ {s : List (Expr K)} {vs : List K}, evalAll env s = .ok vs →
    vs.length = s.length
  | [], _, h => by
      cases h
      rfl
  | a :: rest, _, h => by
      obtain ⟨x, xs, -, hxs, rfl⟩ := results_of_combine_eq_ok h
      rw [List.length_cons, List.length_cons, length_evalAll hxs]

/-! ## What is lacking -/

/-- What keeps expressions that mention these names and have these calls from having a value where
the names with `known` have one. -/
inductive Lacking (known : String → Prop) (names : List String)
    (calls : String → List (Expr K) → Prop) : SymbolicError → Prop where
  /-- A name is not known. -/
  | name {n : String} (hname : n ∈ names) (hknown : ¬ known n) : Lacking known names calls
      (.unboundSymbol n)
  /-- A function has no value at so many arguments. -/
  | function {f : String} {args : List (Expr K)} (hcall : calls f args)
      (hnone : ∀ values : List K, values.length = args.length → Scalar.call? f values = none) :
      Lacking known names calls (.unknownFunction f)

/-- What keeps an expression from having a value where the names with `known` have one. -/
def Lacks (known : String → Prop) (e : Expr K) : SymbolicError → Prop :=
  Lacking known e.names fun f args => e.HasCall f args

/-- What a part lacks the whole lacks, too. -/
theorem Lacking.mono {known : String → Prop} {names names' : List String}
    {calls calls' : String → List (Expr K) → Prop} {err : SymbolicError}
    (hnames : names ⊆ names') (hcalls : ∀ f args, calls f args → calls' f args)
    (h : Lacking known names calls err) : Lacking known names' calls' err := by
  cases h with
  | name hname hknown => exact .name (hnames hname) hknown
  | function hcall hnone => exact .function (hcalls _ _ hcall) hnone

/-- A call without value at some arguments has none at any. -/
theorem applyCall_eq_error (harity : Scalar.ByArity K) {f : String} {values : List K}
    {err : SymbolicError} (h : applyCall f values = .error err) : err = .unknownFunction f ∧
      ∀ xs : List K, xs.length = values.length → Scalar.call? f xs = none := by
  unfold applyCall at h
  split at h
  · cases h
  · rename_i hnone
    cases h
    exact ⟨rfl, fun xs hxs => harity f values xs hxs.symm hnone⟩

mutual

/-- **Evaluation fails only for want of something.** -/
theorem lacks_of_eval_eq_error (harity : Scalar.ByArity K) : ∀ {e : Expr K} {err : SymbolicError},
    e.eval env = .error err → e.Lacks (fun n => ∃ v, env n = some v) err
  | .num _, _, h => nomatch h
  | .sym n, _, h => by
      obtain ⟨hnone, rfl⟩ := lookup_eq_error.mp h
      exact .name (List.mem_singleton_self n) (by simp [hnone])
  | .der a, _, h => by
      obtain ⟨hnone, rfl⟩ := lookup_eq_error.mp h
      exact .name (List.mem_singleton_self _) (by simp [hnone])
  | .neg a, _, h => by
      rcases bind_eq_error.mp h with h | ⟨_, _, h⟩
      · exact lacks_of_eval_eq_error harity (e := a) h
      · cases h
  | .add a b, _, h | .sub a b, _, h | .mul a b, _, h | .div a b, _, h | .pow a b, _, h => by
      rcases combine_eq_error h with h | h
      · have ha := lacks_of_eval_eq_error harity (e := a) h
        exact ha.mono (List.subset_append_left _ _) fun _ _ => .inl
      · have hb := lacks_of_eval_eq_error harity (e := b) h
        exact hb.mono (List.subset_append_right _ _) fun _ _ => .inr
  | .call f args, _, h => by
      rcases bind_eq_error.mp h with h | ⟨values, hvalues, h⟩
      · have hargs := lacking_of_evalAll_eq_error harity (s := args) h
        exact hargs.mono (List.Subset.refl _) fun _ _ => .inr
      · obtain ⟨rfl, hnone⟩ := applyCall_eq_error harity h
        rw [length_evalAll hvalues] at hnone
        exact .function (.inl ⟨rfl, rfl⟩) hnone

/-- Evaluation of expressions fails only for want of something. -/
theorem lacking_of_evalAll_eq_error (harity : Scalar.ByArity K) : ∀ {s : List (Expr K)}
    {err : SymbolicError}, evalAll env s = .error err →
      Lacking (fun n => ∃ v, env n = some v) (namesAll s) (fun f args => AnyHasCall f args s) err
  | [], _, h => nomatch h
  | a :: rest, _, h => by
      rcases bind_eq_error.mp h with h | ⟨_, _, h⟩
      · exact (lacks_of_eval_eq_error harity h).mono (List.subset_append_left _ _) fun _ _ => .inl
      · rcases bind_eq_error.mp h with h | ⟨_, _, h⟩
        · have hrest := lacking_of_evalAll_eq_error harity h
          exact hrest.mono (List.subset_append_right _ _) fun _ _ => .inr
        · cases h

end

mutual

/-- If there is a value, the functions of all calls have one. -/
theorem exists_value_of_hasCall {f : String} {args : List (Expr K)} : ∀ {e : Expr K} {v : K},
    e.eval env = .ok v → e.HasCall f args →
      ∃ (values : List K) (w : K), values.length = args.length ∧ Scalar.call? f values = some w
  | .num _, _, _, hcall | .sym _, _, _, hcall | .der _, _, _, hcall => hcall.elim
  | .neg a, _, h, hcall => by
      obtain ⟨x, hx, -⟩ := bind_eq_ok.mp h
      exact exists_value_of_hasCall (e := a) hx hcall
  | .add a b, _, h, hcall | .sub a b, _, h, hcall | .mul a b, _, h, hcall | .div a b, _, h, hcall
  | .pow a b, _, h, hcall => by
      obtain ⟨x, y, hx, hy, -⟩ := results_of_combine_eq_ok h
      rcases hcall with hcall | hcall
      · exact exists_value_of_hasCall (e := a) hx hcall
      · exact exists_value_of_hasCall (e := b) hy hcall
  | .call g as, v, h, hcall => by
      obtain ⟨xs, hxs, h⟩ := bind_eq_ok.mp h
      rcases hcall with ⟨rfl, rfl⟩ | hcall
      · exact ⟨xs, v, length_evalAll hxs, applyCall_eq_ok.mp h⟩
      · exact exists_value_of_anyHasCall (s := as) hxs hcall

/-- If there are values, the functions of all calls have one. -/
theorem exists_value_of_anyHasCall {f : String} {args : List (Expr K)} : ∀ {s : List (Expr K)}
    {vs : List K}, evalAll env s = .ok vs → AnyHasCall f args s →
      ∃ (values : List K) (w : K), values.length = args.length ∧ Scalar.call? f values = some w
  | [], _, _, hcall => hcall.elim
  | a :: rest, _, h, hcall => by
      obtain ⟨x, xs, hx, hxs, -⟩ := results_of_combine_eq_ok h
      rcases hcall with hcall | hcall
      · exact exists_value_of_hasCall hx hcall
      · exact exists_value_of_anyHasCall hxs hcall

end

/-- **Evaluation fails for want of anything.** -/
theorem Lacks.eval_ne_ok {known : String → Prop} {e : Expr K} {err : SymbolicError}
    (h : e.Lacks known err) (henv : ∀ n v, env n = some v → known n) (v : K) :
    e.eval env ≠ .ok v := by
  intro heval
  cases h with
  | name hname hknown =>
      obtain ⟨w, hw⟩ := bound_of_eval heval _ hname
      exact hknown (henv _ w hw)
  | function hcall hnone =>
      obtain ⟨values, w, hlength, hw⟩ := exists_value_of_hasCall heval hcall
      rw [hnone values hlength] at hw
      cases hw

end Expr

end FlatModel.Symbolic
