import Mathlib
import FlatModel.Dae.Reduction
import FlatModel.Proofs.Gradient
import FlatModel.Proofs.Jacobian

/-!
# The linearized model is the first-order expansion

* `along` — a move of some atoms that leaves all others where they are.
* `IsBlockOf` — the blocks of the linearized model: derivatives by symbols, or nothing.
* `Expansion` — over dual numbers, expressions move by two matrices applied to the moves of states
  and inputs.
* `Model.linearize_expands` — the four blocks expand derivatives and outputs.
-/

namespace FlatModel.Dae

open Symbolic Symbolic.Expr
open TrivSqZeroExt (inl inr)

/-! ## Moves -/

/-- The atoms `u` move by `d`, all others stay. -/
noncomputable def along {n : ℕ} (u : Fin n → Atom) (d : Fin n → ℚ) : Atom → ℚ :=
  Function.extend u d 0

/-- A move is the sum of its unit moves. -/
theorem along_eq_sum {n : ℕ} {u : Fin n → Atom} (hu : Function.Injective u) (d : Fin n → ℚ) :
    along u d = ∑ i, d i • Pi.single (u i) (1 : ℚ) := by
  funext α
  rw [Finset.sum_apply, along]
  by_cases hα : ∃ i, u i = α
  · obtain ⟨i, rfl⟩ := hα
    rw [hu.extend_apply, Finset.sum_eq_single i]
    · simp
    · intro j _ hj
      simp [hu.ne hj.symm]
    · exact fun h => absurd (Finset.mem_univ i) h
  · rw [Function.extend_apply' _ _ _ hα]
    refine (Finset.sum_eq_zero fun i _ => ?_).symm
    have hne : α ≠ u i := fun h => hα ⟨i, h.symm⟩
    simp [hne]

/-- The symbols of a list of names. -/
def symbolAtom (names : List String) (i : Fin names.length) : Atom := ⟨names.get i, 0⟩

/-- Different places hold different symbols if no name occurs twice. -/
theorem symbolAtom_injective {names : List String} (h : names.Nodup) :
    Function.Injective (symbolAtom names) := fun _ _ hij =>
  List.nodup_iff_injective_get.mp h (congrArg Atom.name hij)

/-- The symbols of a list of names, as a vector. -/
theorem map_sym_eq_ofFn {K : Type} (names : List String) :
    names.map (Expr.sym (K := K)) = List.ofFn fun j => (symbolAtom names j).expr := by
  rw [← List.ofFn_getElem_eq_map]
  rfl

/-! ## Blocks -/

section blocks

variable {K : Type} [Scalar K] {f g : List (Expr K)} {names : List String}

/-- The derivatives of expressions by symbols, or the empty block if there are no symbols. -/
def IsBlockOf (es : List (Expr K)) (names : List String) (x : Grid (Expr K)) : Prop :=
  if names = [] then x = .empty else jacobian es (names.map .sym) = .ok x

/-- The two blocks are those of the two lists of expressions. -/
theorem Model.blocks_eq_ok {x y : Grid (Expr K)} (h : Model.blocks f g names = .ok (x, y)) :
    IsBlockOf f names x ∧ IsBlockOf g names y := by
  unfold Model.blocks at h
  unfold IsBlockOf
  rcases hnames : names with _ | ⟨n, rest⟩
  · rw [hnames] at h
    cases h
    exact ⟨rfl, rfl⟩
  rw [hnames] at h
  rw [if_neg (List.cons_ne_nil n rest), if_neg (List.cons_ne_nil n rest)]
  obtain ⟨first, hfirst, h⟩ := bind_eq_ok.mp h
  obtain ⟨second, hsecond, h⟩ := bind_eq_ok.mp h
  cases h
  exact ⟨liftSymbolic_eq_ok.mp hfirst, liftSymbolic_eq_ok.mp hsecond⟩

/-- The four blocks are those of derivatives and outputs by states and inputs. -/
theorem Model.linearize_eq_ok {m : Model K} {l : Linearization (Expr K)}
    (h : m.linearize = .ok l) :
    ∃ e, m.reduce = .ok e ∧
      (IsBlockOf e.derivatives m.states l.a ∧ IsBlockOf e.outputs m.states l.c) ∧
      (IsBlockOf e.derivatives m.inputs l.b ∧ IsBlockOf e.outputs m.inputs l.d) := by
  obtain ⟨e, he, h⟩ := bind_eq_ok.mp h
  obtain ⟨⟨a, c⟩, hx, h⟩ := bind_eq_ok.mp h
  obtain ⟨⟨b, d⟩, hu, h⟩ := bind_eq_ok.mp h
  cases h
  exact ⟨e, he, blocks_eq_ok hx, blocks_eq_ok hu⟩

end blocks

/-! ## Expansion -/

variable {K : Type} [ExactScalar K]

/-- The entries of a block have the values of a matrix.  A block without columns is empty. -/
def BlockHasValues (F : Functions ℚ) (ρ : Valuation ℚ) {m n : ℕ} (x : Grid (Expr K))
    (A : Matrix (Fin m) (Fin n) ℚ) : Prop :=
  if n = 0 then x = .empty else x.HasValues F ρ A

/-- Over dual numbers, the expressions `es` move by `A dx + B du` where the symbols `states` move
by `dx` and the symbols `inputs` by `du`.  The matrices `A` and `B` are the values of two blocks. -/
def Expansion (R : Reading K ℚ) (ρ : Valuation ℚ) (states inputs : List String)
    (es : List (Expr K)) (a b : Grid (Expr K)) : Prop :=
  ∃ (V : Fin es.length → ℚ) (A : Matrix (Fin es.length) (Fin states.length) ℚ)
    (B : Matrix (Fin es.length) (Fin inputs.length) ℚ),
    valueAll R.toFunctions ρ es = some (List.ofFn V) ∧
      BlockHasValues R.toFunctions ρ a A ∧ BlockHasValues R.toFunctions ρ b B ∧
        ∀ dx du, valueAll R.dual
          (ρ.perturb (along (symbolAtom states) dx + along (symbolAtom inputs) du)) es =
            some (List.ofFn fun i => inl (V i) + inr ((A.mulVec dx + B.mulVec du) i))

variable {R : Reading K ℚ} {ρ : Valuation ℚ} {es : List (Expr K)} {V : Fin es.length → ℚ}
  {L : Fin es.length → (Atom → ℚ) →ₗ[ℚ] ℚ}

/-- A block has the values of the gradients at the unit moves of its symbols. -/
theorem IsBlockOf.hasValues {names : List String} {x : Grid (Expr K)} (hx : IsBlockOf es names x)
    (hL : ∀ i, Gradient R ρ (es.get i) (V i) (L i)) :
    BlockHasValues R.toFunctions ρ x
      (Matrix.of fun i j => L i (Pi.single (symbolAtom names j) 1)) := by
  unfold IsBlockOf at hx
  unfold BlockHasValues
  split at hx
  · rename_i hnames
    rw [if_pos (by rw [hnames]; rfl)]
    exact hx
  · rename_i hnames
    rw [if_neg (by rwa [List.length_eq_zero_iff])]
    rw [← List.ofFn_get es, map_sym_eq_ofFn] at hx
    exact jacobian_hasValues hx fun i j => (hL i).partials _

/-- What a linear form does to a move is a product with the matrix of its unit moves. -/
theorem apply_along {n : ℕ} {u : Fin n → Atom} (hu : Function.Injective u) {p : ℕ}
    (L : Fin p → (Atom → ℚ) →ₗ[ℚ] ℚ) (i : Fin p) (d : Fin n → ℚ) :
    L i (along u d) = (Matrix.of fun i j => L i (Pi.single (u j) 1)).mulVec d i := by
  rw [along_eq_sum hu, map_sum]
  refine Finset.sum_congr rfl fun j _ => ?_
  rw [map_smul, smul_eq_mul, mul_comm]
  rfl

/-- **Smooth expressions are expanded by their derivatives.** -/
theorem expansion_of_isBlockOf (hpow : R.NaturalPowers) {states inputs : List String}
    (hs : states.Nodup) (hi : inputs.Nodup) {a b : Grid (Expr K)} (ha : IsBlockOf es states a)
    (hb : IsBlockOf es inputs b)
    (hes : ∀ e ∈ es, e.Smooth ∧ e.OuterDefined R ρ ∧ ∃ v, e.value R.toFunctions ρ = some v) :
    Expansion R ρ states inputs es a b := by
  have hgrad : ∀ i, ∃ v L, Gradient R ρ (es.get i) v L := by
    intro i
    obtain ⟨hsmooth, houter, v, hv⟩ := hes _ (es.get_mem i)
    exact ⟨v, exists_gradient hpow hsmooth houter hv⟩
  choose V L hL using hgrad
  refine ⟨V, _, _, ?_, ha.hasValues hL, hb.hasValues hL, fun dx du => ?_⟩
  · exact valueAll_get fun i => (hL i).value
  · refine valueAll_get fun i => ?_
    rw [(hL i).dual, map_add, apply_along (symbolAtom_injective hs),
      apply_along (symbolAtom_injective hi)]
    rfl

/-- **The linearized model is the first-order expansion of the explicit form.**  Wherever
derivatives and outputs are smooth and defined, moving the states by `ε dx` and the inputs by
`ε du` moves the derivatives by `ε (A dx + B du)` and the outputs by `ε (C dx + D du)`. -/
theorem Model.linearize_expands (R : Reading K ℚ) (hpow : R.NaturalPowers) {m : Model K}
    (hs : m.states.Nodup) (hi : m.inputs.Nodup) {e : Explicit K} {l : Linearization (Expr K)}
    (he : m.reduce = .ok e) (hl : m.linearize = .ok l) (ρ : Valuation ℚ)
    (hdef : ∀ f ∈ e.derivatives ++ e.outputs,
      f.Smooth ∧ f.OuterDefined R ρ ∧ ∃ v, f.value R.toFunctions ρ = some v) :
    Expansion R ρ m.states m.inputs e.derivatives l.a l.b ∧
      Expansion R ρ m.states m.inputs e.outputs l.c l.d := by
  obtain ⟨e', he', ⟨ha, hc⟩, hb, hd⟩ := Model.linearize_eq_ok hl
  cases he.symm.trans he'
  exact ⟨expansion_of_isBlockOf hpow hs hi ha hb fun f hf => hdef f (List.mem_append_left _ hf),
    expansion_of_isBlockOf hpow hs hi hc hd fun f hf => hdef f (List.mem_append_right _ hf)⟩

/-- The model of `der(x) = x * u` and `y = abs(x)`. -/
def bilinear : Model (Exact .standard) where
  name := "Bilinear"
  states := ["x"]
  algebraics := ["y"]
  constants := []
  parameters := []
  inputs := ["u"]
  outputs := ["y"]
  stateDefaults := .empty
  constantDefaults := .empty
  parameterDefaults := .empty
  inputDefaults := .empty
  residuals := [.sub (.der (.sym "x")) (.mul (.sym "x") (.sym "u")),
    .sub (.sym "y") (.call "abs" [.sym "x"])]
  missingDefaults := []

/-- The expansion of `x * u` and `abs(x)` where `x` is `-2` and `u` is `3`. -/
theorem Model.linearize_expands_bilinear :
    let x : Expr (Exact .standard) := .sym "x"
    let u : Expr (Exact .standard) := .sym "u"
    let ρ : Valuation ℚ := fun α => if α = ⟨"x", 0⟩ then some (-2) else
      if α = ⟨"u", 0⟩ then some 3 else none
    bilinear.reduce = .ok ⟨[.mul x u], [.call "abs" [x]]⟩ ∧
      bilinear.linearize = .ok ⟨.ofRows [[u]], .ofRows [[x]], .ofRows [[.call "sign" [x]]],
        .ofRows [[zero]]⟩ ∧
      Expansion Reading.standard ρ ["x"] ["u"] [.mul x u] (.ofRows [[u]]) (.ofRows [[x]]) ∧
      Expansion Reading.standard ρ ["x"] ["u"] [.call "abs" [x]] (.ofRows [[.call "sign" [x]]])
        (.ofRows [[zero]]) := by
  intro x u ρ
  have hreduce : bilinear.reduce = .ok ⟨[.mul x u], [.call "abs" [x]]⟩ := by
    cbv
  have hlinearize : bilinear.linearize = .ok ⟨.ofRows [[u]], .ofRows [[x]],
      .ofRows [[.call "sign" [x]]], .ofRows [[zero]]⟩ := by
    cbv
  have hx : x.value Reading.standard.toFunctions ρ = some (-2) := by simp [x, ρ, value]
  have hu : u.value Reading.standard.toFunctions ρ = some 3 := by simp [u, ρ, value]
  have habs : (Expr.call "abs" [x]).value Reading.standard.toFunctions ρ = some |(-2 : ℚ)| :=
    value_call_eq_some.mpr ⟨[-2], valueAll_cons_eq_some.mpr ⟨_, [], hx, rfl, rfl⟩, rfl⟩
  have hsign : (Expr.call "sign" [x]).value Reading.standard.toFunctions ρ =
      some (Functions.signOf (-2)) :=
    value_call_eq_some.mpr ⟨[-2], valueAll_cons_eq_some.mpr ⟨_, [], hx, rfl, rfl⟩, rfl⟩
  refine ⟨hreduce, hlinearize, Model.linearize_expands Reading.standard
    Functions.standard_naturalPowers (List.nodup_singleton "x") (List.nodup_singleton "u") hreduce
    hlinearize ρ ?_⟩
  intro f hf
  rcases List.mem_cons.mp hf with rfl | hf
  · exact ⟨⟨trivial, trivial⟩, ⟨trivial, trivial⟩, _, value_mul hx hu⟩
  · cases List.mem_singleton.mp hf
    refine ⟨⟨trivial, rfl⟩, ⟨trivial, fun outer houter => ?_⟩, _, habs⟩
    cases houter
    exact ⟨_, hsign⟩

end FlatModel.Dae
