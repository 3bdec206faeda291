import FlatModel.Proofs.ModelOfClass
import FlatModel.Proofs.Occurrence
import FlatModel.Proofs.UnresolvedReferences

/-!
# The form of lowered expressions

* `Dae.NormalLeaf` — a number, a declared identifier, or a time derivative of some order of an
  identifier that varies with time.
* `Dae.Scope.Keeps` — what time derivatives in a scope keep of all leaves.
* `Dae.leaves_lower` — lowering in a scope keeps it, if all symbols that are referred to have it.
* `Dae.Model.Declared`, `Dae.Model.Dynamic` — identifiers of a model, and those that vary with time.
* `Dae.Model.leaves_residuals` — the leaves of the residuals of a class.
-/

namespace FlatModel.Dae

open Symbolic Symbolic.Expr

variable {K : Type}

/-! ## Leaves -/

/-- A symbol whose identifier satisfies `p`. -/
def SymbolWith (p : String → Prop) : Expr K → Prop
  | .sym n => p n
  | _ => False

/-- A number, a declared identifier, or a time derivative of some order of a dynamic one. -/
def NormalLeaf (declared dynamic : String → Prop) : Expr K → Prop
  | .num _ => True
  | .sym n => declared n
  | .der a => a.BaseIs (SymbolWith dynamic)
  | _ => False

section leaves

variable {declared dynamic : String → Prop}

/-- More may be declared, and more may be dynamic. -/
theorem NormalLeaf.imp {declared' dynamic' : String → Prop} (h : ∀ n, declared n → declared' n)
    (h' : ∀ n, dynamic n → dynamic' n) : ∀ l : Expr K, NormalLeaf declared dynamic l →
      NormalLeaf declared' dynamic' l
  | .num _, _ => trivial
  | .sym n, hl => h n hl
  | .der _, hl => BaseIs.imp (fun
      | .sym n, hn => h' n hn) hl

/-- There is nothing to simplify under the time derivatives. -/
theorem NormalLeaf.simplify_eq [Scalar K] {a : Expr K} (h : a.BaseIs (SymbolWith dynamic)) :
    a.simplify = a :=
  h.simplify_eq fun
    | .sym _, _ => rfl

theorem foldClosed_normalLeaf [Scalar K] :
    FoldClosed (NormalLeaf declared dynamic : Expr K → Prop) :=
  foldClosed_of_num (fun _ => trivial) fun a ha => by
    have ha : a.BaseIs (SymbolWith dynamic) := ha
    rw [NormalLeaf.simplify_eq ha]
    exact ha

end leaves

/-! ## Expressions in a scope -/

namespace Scope

variable {s : Scope}

/-- What expressions that are lowered in a scope are built from. -/
def Leaf (s : Scope) : Expr K → Prop :=
  NormalLeaf (fun n => ∃ name ∈ s.names, Identifier.sanitize name = n) fun n => s.isDynamic n = true

/-- A name of the scope stands for the symbol of its identifier. -/
theorem resolve_of_mem {name : String} (h : name ∈ s.names) :
    s.resolve name = .ok (.sym (Identifier.sanitize name) : Expr K) := by
  rw [resolve, if_pos (List.contains_iff_mem.mpr h)]

variable [Scalar K]

/-- A property that all numbers have and that time derivatives in the scope keep. -/
structure Keeps (s : Scope) (p : Expr K → Prop) : Prop where
  /-- Every number has it. -/
  num : ∀ x, p (.num x)
  /-- Time derivatives keep it when their operand is simplified. -/
  der : ∀ a, p (.der a) → p (.der a.simplify)
  /-- The time derivative of a leaf. -/
  timeLeaf : ∀ l, p l → (timeLeaf s.isDynamic l).AllLeaves p

theorem Keeps.foldClosed {p : Expr K → Prop} (hp : s.Keeps p) : FoldClosed p :=
  foldClosed_of_num hp.num hp.der

theorem keeps_leaf : s.Keeps (s.Leaf (K := K)) where
  num _ := trivial
  der _ := foldClosed_normalLeaf.der
  timeLeaf l hl := by
    cases l with
    | sym n =>
        rw [Expr.timeLeaf]
        split_ifs with hdynamic
        · exact hdynamic
        · trivial
    | der a => exact hl
    | num x => trivial
    | _ => exact hl.elim

end Scope

variable [Scalar K] {s : Scope} {p : Expr K → Prop}

/-- An operation over lowered operands. -/
theorem leaves_lowerOperation (hp : s.Keeps p) {operator : String} {args : List (Expr K)}
    {e : Expr K} (hargs : AllLeavesOf p args) (h : lowerOperation s operator args = .ok e) :
    e.AllLeaves p := by
  unfold lowerOperation at h
  split at h
  · rename_i a
    split_ifs at h
    · obtain ⟨d, hd, hsimplify⟩ := bind_eq_ok.mp (liftSymbolic_eq_ok.mp h)
      cases hsimplify
      have hd := hp.foldClosed.differentiable.derivative (fun n => hp.timeLeaf (.sym n))
        (fun b => hp.timeLeaf (.der b)) hargs.1 hd
      exact hd.simplify hp.foldClosed
    · cases h
      exact hargs.1
    · cases h
      exact hargs.1
    · cases h
      exact hargs
  · rename_i a b
    cases h
    unfold arithmetic?
    obtain ⟨ha, hb, _⟩ := hargs
    split_ifs
    iterate 5 exact ⟨ha, hb⟩
    exact ⟨ha, hb, trivial⟩
  · cases h
    exact hargs

mutual

/-- **The leaves of a lowered expression.** -/
theorem leaves_lower (hp : s.Keeps p) : ∀ {x : Expression} {e : Expr K},
    (∀ name ∈ x.references, name ∈ s.names → p (.sym (Identifier.sanitize name))) →
      lower s x = .ok e → e.AllLeaves p
  | .literal _ value, e, _, h => by
      unfold lower lowerLiteral at h
      split at h
      · cases h
        split_ifs
        · exact hp.num _
        · exact hp.num _
      · cases h
        exact hp.num _
      · cases h
        exact hp.num _
      · cases h
  | .reference _ name, e, href, h => by
      unfold lower Scope.resolve at h
      split_ifs at h with hname
      cases h
      exact href name List.mem_cons_self (List.contains_iff_mem.mp hname)
  | .operation _ operator operands, e, href, h => by
      obtain ⟨args, hargs, h⟩ := bind_eq_ok.mp h
      exact leaves_lowerOperation hp (leaves_lowerAll hp operands href hargs) h

/-- The leaves of lowered expressions. -/
theorem leaves_lowerAll (hp : s.Keeps p) : ∀ (xs : List Expression) {es : List (Expr K)},
    (∀ name ∈ Expression.referencesAll xs, name ∈ s.names →
      p (.sym (Identifier.sanitize name))) →
      lowerAll s xs = .ok es → AllLeavesOf p es
  | [], es, _, h => by
      cases h
      trivial
  | x :: rest, es, href, h => by
      obtain ⟨a, more, ha, hmore, rfl⟩ := results_of_combine_eq_ok h
      exact ⟨leaves_lower hp (fun name hname => href name (List.mem_append_left _ hname)) ha,
        leaves_lowerAll hp rest (fun name hname => href name (List.mem_append_right _ hname)) hmore⟩

end

/-- The leaves of an expression that is lowered in a scope are those of the scope. -/
theorem scopeLeaves_lower {x : Expression} {e : Expr K} (h : lower s x = .ok e) :
    e.AllLeaves s.Leaf :=
  leaves_lower Scope.keeps_leaf (fun name _ hname => ⟨name, hname, rfl⟩) h

/-- The leaves of the residual of an equation. -/
theorem leaves_lowerEquation {x : Equation} {e : Expr K} (h : lowerEquation s x = .ok e) :
    e.AllLeaves s.Leaf := by
  obtain ⟨left, right, hleft, hright, rfl⟩ := results_of_combine_eq_ok h
  exact ⟨scopeLeaves_lower hleft, scopeLeaves_lower hright⟩

/-! ## Models of classes -/

namespace Model

/-- The identifiers of a model. -/
def Declared (m : Model K) (n : String) : Prop :=
  n ∈ m.states ∨ n ∈ m.algebraics ∨ n ∈ m.constants ∨ n ∈ m.parameters ∨ n ∈ m.inputs

/-- The identifiers of a model that vary with time. -/
def Dynamic (m : Model K) (n : String) : Prop :=
  n ∈ m.states ∨ n ∈ m.algebraics ∨ n ∈ m.inputs

/-- What the residuals of a model are built from. -/
def Leaf (m : Model K) : Expr K → Prop := NormalLeaf m.Declared m.Dynamic

section ofClass

variable {c : ClassDef} {m : Model K}

omit [Scalar K] in
/-- The identifier of a symbol in a group. -/
theorem mem_identifiers {symbols : List Symbol} {sym : Symbol} (h : sym ∈ symbols) :
    Identifier.sanitize sym.name ∈ identifiers symbols :=
  List.mem_map_of_mem h

/-- Every output of the model of a class is a state or an algebraic variable. -/
theorem mem_of_mem_outputs (hm : Model.ofClass c = .ok m) {n : String} (hn : n ∈ m.outputs) :
    n ∈ m.states ∨ n ∈ m.algebraics := by
  obtain ⟨_, _, _, _, _, _, _, _, _, _, rfl⟩ := ofClass_parts hm
  obtain ⟨sym, hsym, rfl⟩ := List.mem_map.mp hn
  exact (SymbolGroups.mem_of_mem_outputs hsym).imp mem_identifiers mem_identifiers

/-- The identifiers of the symbols of a class are those of its model. -/
theorem declared_of_mem_names (hkeys : c.IsKeyed) (hm : Model.ofClass c = .ok m) {name : String}
    (hname : name ∈ (Scope.ofClass c).names) : m.Declared (Identifier.sanitize name) := by
  obtain ⟨_, _, _, _, _, _, _, _, _, _, rfl⟩ := ofClass_parts hm
  obtain ⟨p, hp, rfl⟩ := List.mem_map.mp hname
  rw [hkeys p hp]
  rcases SymbolGroups.mem_group (List.mem_map_of_mem hp) with h | h | h | h | h
  · exact .inl (mem_identifiers h)
  · exact .inr (.inl (mem_identifiers h))
  · exact .inr (.inr (.inl (mem_identifiers h)))
  · exact .inr (.inr (.inr (.inl (mem_identifiers h))))
  · exact .inr (.inr (.inr (.inr (mem_identifiers h))))

/-- What varies with time in a class does so in its model. -/
theorem dynamic_of_isDynamic (hm : Model.ofClass c = .ok m) {n : String}
    (hn : (Scope.ofClass c).isDynamic n = true) : m.Dynamic n := by
  have houtputs := mem_of_mem_outputs hm (n := n)
  obtain ⟨_, _, _, _, _, _, _, _, _, _, rfl⟩ := ofClass_parts hm
  obtain ⟨sym, hsym, rfl⟩ := List.mem_map.mp (List.contains_iff_mem.mp hn)
  simp only [List.mem_append] at hsym
  rcases hsym with ((h | h) | h) | h
  · exact .inl (mem_identifiers h)
  · exact .inr (.inl (mem_identifiers h))
  · exact .inr (.inr (mem_identifiers h))
  · exact (houtputs (mem_identifiers h)).imp_right .inl

/-- The leaves of a scope are those of the model. -/
theorem leaf_of_scopeLeaf (hkeys : c.IsKeyed) (hm : Model.ofClass c = .ok m) :
    ∀ l : Expr K, (Scope.ofClass c).Leaf l → m.Leaf l :=
  NormalLeaf.imp (fun _ ⟨_, hname, hn⟩ => hn ▸ declared_of_mem_names hkeys hm hname)
    fun _ => dynamic_of_isDynamic hm

/-- **The leaves of the residuals of a class.** -/
theorem leaves_residuals (hkeys : c.IsKeyed) (hm : Model.ofClass c = .ok m) :
    ∀ r ∈ m.residuals, r.AllLeaves m.Leaf := by
  have hleaf := leaf_of_scopeLeaf hkeys hm
  obtain ⟨_, _, _, _, _, _, _, _, _, hresiduals, rfl⟩ := ofClass_parts hm
  intro r hr
  obtain ⟨x, _, hx⟩ := exists_of_mem_mapM hresiduals hr
  exact (leaves_lowerEquation hx).imp hleaf

end ofClass

end Model

end FlatModel.Dae
