import Mathlib
import FlatModel.Proofs.Evaluation
import FlatModel.Proofs.Occurrence

/-!
# Substitution and evaluation

Replacing atoms by expressions and then evaluating is the same as evaluating with the atoms bound to
the values of those expressions.  Substitution goes into time derivatives while evaluation looks them
up by their texts, so the two agree only where a time derivative is replaced as a whole or not at all.

* `PlainName` — names that no printed time derivative is among; `Atom.text_eq_iff` — the text of an
  atom with a plain name tells the atom.
* `Expr.rebound` — the environment with the replaced atoms bound to the values of their replacements.
* `Expr.Rebinds` — pairs that replace atoms by expressions with a value.
* `Expr.Settled` — leaves that are replaced as a whole or left alone.
* `Expr.eval_subst_of_leaves` — substitution is evaluation elsewhere if it is so at all leaves.
* `Expr.eval_subst_simultaneous` — it is so at settled leaves.
-/

namespace FlatModel.Symbolic

open FlatModel.Symbolic.Expr (iteratedDer)

variable {K : Type}

/-! ## The texts of atoms -/

/-- A name without opening parenthesis, as identifiers are.  It is not the text of a time
derivative. -/
def PlainName (name : String) : Prop := '(' ∉ name.toList

instance (name : String) : Decidable (PlainName name) := inferInstanceAs (Decidable (_ ∉ _))

variable [Scalar K]

/-- The characters of a symbol under time derivatives tell the symbol and how many there are. -/
theorem Expr.eq_of_chars_iteratedDer {m n : String} (hm : PlainName m) (hn : PlainName n) :
    ∀ {j k : ℕ}, (iteratedDer m j : Expr K).chars = (iteratedDer n k : Expr K).chars → m = n ∧ j = k
  | 0, 0, h => ⟨String.toList_inj.mp h, rfl⟩
  | 0, k + 1, h => by
      have h : m.toList = ['d', 'e', 'r', '('] ++ (iteratedDer n k : Expr K).chars ++ [')'] := h
      exact absurd (by simp [h]) hm
  | j + 1, 0, h => by
      have h : ['d', 'e', 'r', '('] ++ (iteratedDer m j : Expr K).chars ++ [')'] = n.toList := h
      exact absurd (by simp [← h]) hn
  | j + 1, k + 1, h => by
      have h : ['d', 'e', 'r', '('] ++ (iteratedDer m j : Expr K).chars ++ [')'] =
          ['d', 'e', 'r', '('] ++ (iteratedDer n k : Expr K).chars ++ [')'] := h
      have hchars := List.append_cancel_left (List.append_cancel_right h)
      obtain ⟨hname, horder⟩ := eq_of_chars_iteratedDer hm hn hchars
      exact ⟨hname, congrArg (· + 1) horder⟩

/-- **The text of an atom with a plain name tells the atom.** -/
theorem Atom.text_eq_iff {α β : Atom} (hα : PlainName α.name) (hβ : PlainName β.name) :
    (α.expr : Expr K).text = (β.expr : Expr K).text ↔ α = β := by
  constructor
  · intro h
    obtain ⟨hname, horder⟩ := Expr.eq_of_chars_iteratedDer hα hβ (String.ofList_inj.mp h)
    cases α
    cases β
    cases hname
    cases horder
    rfl
  · rintro rfl
    rfl

namespace Expr

/-! ## Environments after a substitution -/

/-- The environment in which the text of a first part is bound to the value of the second part, of
the first pair with that first part.  All values are those in the environment as it was. -/
def rebound (env : String → Option K) (pairs : List (Expr K × Expr K)) (name : String) : Option K :=
  match pairs.find? fun p => p.1.text == name with
  | some p => (p.2.eval env).toOption
  | none => env name

/-- The pairs replace atoms with plain names, and by expressions that have a value. -/
structure Rebinds (env : String → Option K) (pairs : List (Expr K × Expr K)) : Prop where
  /-- What is replaced is a symbol or a time derivative of one. -/
  atom : ∀ p ∈ pairs, ∃ α : Atom, p.1.atom? = some α ∧ PlainName α.name
  /-- What stands for it can be evaluated. -/
  evaluates : ∀ p ∈ pairs, ∃ x, p.2.eval env = .ok x

namespace Rebinds

variable {env : String → Option K} {pairs : List (Expr K × Expr K)} {α : Atom}

/-- Only atoms are replaced. -/
theorem replacement?_eq_none (hp : Rebinds env pairs) {e : Expr K} (he : e.atom? = none) :
    replacement? pairs e = none := by
  rw [replacement?, Option.map_eq_none_iff, List.find?_eq_none]
  intro p hmem hbeq
  obtain ⟨β, hβ, _⟩ := hp.atom p hmem
  rw [eq_expr_of_atom? hβ, expr_beq_of_atom?_eq_none he] at hbeq
  cases hbeq

/-- A first part is an atom just if it has the text of the atom. -/
theorem beq_eq_beq_text (hp : Rebinds env pairs) (hα : PlainName α.name) :
    ∀ p ∈ pairs, (p.1 == α.expr) = (p.1.text == (α.expr : Expr K).text) := by
  intro p hmem
  obtain ⟨β, hβ, hplain⟩ := hp.atom p hmem
  rw [eq_expr_of_atom? hβ, Bool.eq_iff_iff, expr_beq_expr, beq_iff_eq, Atom.text_eq_iff hplain hα]

/-- **A replaced atom has the value of its replacement, any other atom the one it had.** -/
theorem lookup_rebound (hp : Rebinds env pairs) (hα : PlainName α.name) :
    lookup (rebound env pairs) (α.expr : Expr K).text =
      match replacement? pairs α.expr with
      | some t => t.eval env
      | none => lookup env (α.expr : Expr K).text := by
  have hfind : (pairs.find? fun p => p.1.text == (α.expr : Expr K).text) =
      pairs.find? fun p => p.1 == α.expr :=
    List.find?_congr fun p hmem => (hp.beq_eq_beq_text hα p hmem).symm
  rw [lookup, rebound, hfind, replacement?]
  rcases hfirst : pairs.find? fun p => p.1 == α.expr with _ | p
  · rw [hfirst]
    rfl
  · obtain ⟨x, hx⟩ := hp.evaluates p (List.mem_of_find?_eq_some hfirst)
    rw [hfirst]
    simp only [Option.map_some, hx]
    rfl

end Rebinds

/-! ## Leaves -/

omit [Scalar K] in
/-- The expressions from a time derivative down to what is differentiated.  They are all that an atom
is made of. -/
def stages : Expr K → List (Expr K)
  | .der a => .der a :: a.stages
  | e => [e]

omit [Scalar K] in
/-- An expression is a part of itself. -/
theorem mem_stages (e : Expr K) : e ∈ e.stages := by
  cases e <;> exact List.mem_cons_self

/-- A leaf that is replaced as a whole or has nothing in it to replace.  Its names are plain, and time
derivatives are of atoms. -/
def Settled (pairs : List (Expr K × Expr K)) : Expr K → Prop
  | .num _ => True
  | .sym n => PlainName n
  | .der a => (∃ α, a.atom? = some α ∧ PlainName α.name) ∧
      ((∃ p ∈ pairs, p.1 = .der a) ∨ ∀ p ∈ pairs, p.1 ∉ (Expr.der a).stages)
  | _ => False

variable {env env' : String → Option K} {pairs : List (Expr K × Expr K)}

/-- Nothing takes the place of an atom with nothing in it to replace. -/
theorem Rebinds.replacement?_of_stages (hp : Rebinds env pairs) {a : Expr K} {α : Atom}
    (ha : a.atom? = some α) (hfree : ∀ p ∈ pairs, p.1 ∉ a.stages) : replacement? pairs a = none := by
  rw [replacement?, Option.map_eq_none_iff, List.find?_eq_none]
  intro p hmem hbeq
  obtain ⟨β, hβ, _⟩ := hp.atom p hmem
  have heq : p.1 = a := by
    rw [eq_expr_of_atom? hβ, eq_expr_of_atom? ha, expr_beq_expr] at hbeq
    rw [eq_expr_of_atom? hβ, eq_expr_of_atom? ha, hbeq]
  exact hfree p hmem (heq ▸ mem_stages a)

/-- An atom with nothing in it to replace is left alone. -/
theorem Rebinds.subst_of_stages (hp : Rebinds env pairs) : ∀ {a : Expr K} {α : Atom},
    a.atom? = some α → (∀ p ∈ pairs, p.1 ∉ a.stages) → a.subst pairs = a
  | .sym n, _, ha, hfree => by
      rw [subst, hp.replacement?_of_stages ha hfree]
      rfl
  | .der a, _, ha, hfree => by
      obtain ⟨β, hβ, _⟩ := Option.map_eq_some_iff.mp ha
      have hoperand : a.subst pairs = a :=
        hp.subst_of_stages hβ fun p hmem h => hfree p hmem (List.mem_cons_of_mem _ h)
      rw [subst, hp.replacement?_of_stages ha hfree, hoperand]
      rfl

/-- What is replaced turns into its replacement. -/
theorem subst_of_replacement? {e t : Expr K} (h : replacement? pairs e = some t) :
    e.subst pairs = t := by
  cases e <;> rw [subst, h] <;> rfl

/-- An atom is looked up by its text. -/
theorem eval_of_atom? {a : Expr K} {α : Atom} (ha : a.atom? = some α) :
    a.eval env = lookup env a.text := by
  cases a with
  | sym n => rw [eval, show (sym n : Expr K).text = n from String.ofList_toList]
  | der a => rfl
  | _ => cases ha

/-- An atom that is replaced, or else left alone, is evaluated after substitution as it is in the
rebound environment. -/
theorem Rebinds.eval_subst_atom (hp : Rebinds env pairs) {a : Expr K} {α : Atom}
    (ha : a.atom? = some α) (hplain : PlainName α.name)
    (hleft : replacement? pairs a = none → a.subst pairs = a) :
    (a.subst pairs).eval env = a.eval (rebound env pairs) := by
  have hlookup := hp.lookup_rebound hplain
  rw [← eq_expr_of_atom? ha] at hlookup
  rw [eval_of_atom? ha, hlookup]
  rcases hreplacement : replacement? pairs a with _ | t
  · rw [hleft hreplacement, eval_of_atom? ha]
  · rw [subst_of_replacement? hreplacement]

/-- **A settled leaf is evaluated after substitution as it is in the rebound environment.** -/
theorem Rebinds.eval_subst_leaf (hp : Rebinds env pairs) : ∀ {l : Expr K}, Settled pairs l →
    (l.subst pairs).eval env = l.eval (rebound env pairs)
  | .num x, _ => by
      rw [subst, hp.replacement?_eq_none rfl]
      rfl
  | .sym n, hn => by
      refine hp.eval_subst_atom (α := ⟨n, 0⟩) rfl hn fun hnone => ?_
      rw [subst, hnone]
      rfl
  | .der a, ⟨⟨α, hα, hplain⟩, hsettled⟩ => by
      have hder : (Expr.der a).atom? = some α.der := congrArg (Option.map Atom.der) hα
      refine hp.eval_subst_atom hder hplain fun hnone => ?_
      rcases hsettled with ⟨p, hmem, heq⟩ | hfree
      · -- a pair replaces it as a whole
        have hbeq := beq_of_replacement?_eq_none hnone p hmem
        rw [heq, eq_expr_of_atom? hder, expr_beq_expr.mpr rfl] at hbeq
        cases hbeq
      · exact hp.subst_of_stages hder hfree

/-! ## Whole expressions -/

mutual

/-- Substitution of atoms is evaluation in another environment if it is so at all leaves. -/
theorem eval_subst_of_leaves {q : Expr K → Prop} (hp : Rebinds env pairs)
    (hleaf : ∀ l, q l → (l.subst pairs).eval env = l.eval env') : ∀ {e : Expr K}, e.AllLeaves q →
      (e.subst pairs).eval env = e.eval env'
  | .num _, he | .sym _, he | .der _, he => hleaf _ he
  | .neg a, he => by
      rw [subst, hp.replacement?_eq_none rfl, Option.getD_none, eval, eval,
        eval_subst_of_leaves hp hleaf (e := a) he]
  | .add a b, he | .sub a b, he | .mul a b, he | .div a b, he | .pow a b, he => by
      rw [subst, hp.replacement?_eq_none rfl, Option.getD_none, eval, eval,
        eval_subst_of_leaves hp hleaf (e := a) he.1, eval_subst_of_leaves hp hleaf (e := b) he.2]
  | .call f args, he => by
      rw [subst, hp.replacement?_eq_none rfl, Option.getD_none, eval, eval,
        evalAll_substAll_of_leaves hp hleaf (s := args) he]

/-- The same in a list of expressions. -/
theorem evalAll_substAll_of_leaves {q : Expr K → Prop} (hp : Rebinds env pairs)
    (hleaf : ∀ l, q l → (l.subst pairs).eval env = l.eval env') : ∀ {s : List (Expr K)},
      AllLeavesOf q s → evalAll env (substAll pairs s) = evalAll env' s
  | [], _ => rfl
  | a :: rest, he => by
      rw [substAll, evalAll, evalAll, eval_subst_of_leaves hp hleaf (e := a) he.1,
        evalAll_substAll_of_leaves hp hleaf (s := rest) he.2]

end

/-- **Simultaneous substitution is evaluation with the atoms bound to the values of what replaces
them**, errors included.  All replacements are evaluated in the environment as it was: nothing is
replaced in them.  Of several pairs with one first part the first counts. -/
theorem eval_subst_simultaneous {e : Expr K} (hp : Rebinds env pairs)
    (he : e.AllLeaves (Settled pairs)) :
    (e.subst pairs).eval env = e.eval (rebound env pairs) :=
  eval_subst_of_leaves hp (fun _ => hp.eval_subst_leaf) he

/-- `der(x) * x + der(der(y))` where `x + y` replaces `der(x)`, and `2` rather than `der(x)` replaces
`x`. -/
theorem eval_subst_simultaneous_first :
    let x : Expr (Exact .standard) := .sym "x"
    let y : Expr (Exact .standard) := .sym "y"
    let e := add (mul (der x) x) (der (der y))
    let pairs := [(der x, add x y), (x, two), (x, der x)]
    let env : String → Option (Exact .standard) := fun name =>
      [("x", ⟨some 3⟩), ("y", ⟨some 4⟩), ("der(x)", ⟨some 9⟩), ("der(der(y))", ⟨some 5⟩)].lookup name
    rebound env pairs "der(x)" = some ⟨some 7⟩ ∧ rebound env pairs "x" = some ⟨some 2⟩ ∧
      (e.subst pairs).eval env = .ok ⟨some 19⟩ ∧
        (e.subst pairs).eval env = e.eval (rebound env pairs) := by
  intro x y e pairs env
  have hx : PlainName "x" := by decide
  have hp : Rebinds env pairs := by
    constructor
    · simp only [pairs, List.forall_mem_cons]
      exact ⟨⟨⟨"x", 1⟩, rfl, hx⟩, ⟨⟨"x", 0⟩, rfl, hx⟩, ⟨⟨"x", 0⟩, rfl, hx⟩, nofun⟩
    · simp only [pairs, List.forall_mem_cons]
      exact ⟨⟨⟨some 7⟩, by cbv⟩, ⟨⟨some 2⟩, by cbv⟩, ⟨⟨some 9⟩, by cbv⟩, nofun⟩
  have hder : Settled pairs (der x) :=
    ⟨⟨⟨"x", 0⟩, rfl, hx⟩, .inl ⟨(der x, add x y), List.mem_cons_self, rfl⟩⟩
  have hsecond : Settled pairs (der (der y)) := by
    refine ⟨⟨⟨"y", 1⟩, rfl, (by decide : PlainName "y")⟩, .inr ?_⟩
    simp [pairs, stages, x, y]
  have he : e.AllLeaves (Settled pairs) := ⟨⟨hder, hx⟩, hsecond⟩
  exact ⟨by cbv, by cbv, by cbv, eval_subst_simultaneous hp he⟩

end Expr

end FlatModel.Symbolic
