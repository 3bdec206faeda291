import FlatModel.Command.Run
import FlatModel.Proofs.ModelOrder
import FlatModel.Proofs.NumericValues

/-!
# The printed linearization

* `Grid.HasSize`, `Model.sizes_of_linearize` — the blocks of a linearization have a column for each
  state or input, and a row for each state or output.
* `linearizationPart_eq_ok`, `linearizationPart_sizes` — what is printed: these blocks, each below its
  name and size.
* `linearizationPart_tank` — the text of one linearization.
-/

namespace FlatModel

open Symbolic Symbolic.Expr

/-! ## Sizes of blocks -/

namespace Symbolic

variable {K : Type} [Scalar K]

/-- Every expression is one. -/
theorem Expr.hereditary_true : Hereditary fun _ : Expr K => True where
  toFoldClosed := foldClosed_of_num (fun _ => trivial) fun _ _ => trivial
  neg_iff := iff_of_true trivial trivial
  add_iff := iff_of_true trivial ⟨trivial, trivial⟩
  sub_iff := iff_of_true trivial ⟨trivial, trivial⟩
  mul_iff := iff_of_true trivial ⟨trivial, trivial⟩
  div_iff := iff_of_true trivial ⟨trivial, trivial⟩
  pow_iff := iff_of_true trivial ⟨trivial, trivial⟩
  args _ _ _ := trivial
  call _ _ _ := trivial

/-- A solution has an entry for each equation. -/
theorem length_solveLinear {a : Grid (Expr K)} {b x : List (Expr K)} (h : solveLinear a b = .ok x) :
    x.length = b.length :=
  (all_solveLinear hereditary_true (fun _ _ _ _ => trivial) (fun _ _ => trivial) h).1

/-- The grid has so many columns, and so many rows unless it has no columns at all. -/
structure Grid.HasSize {α : Type} (g : Grid α) (rows columns : ℕ) : Prop where
  /-- The number of columns. -/
  width : g.columns = columns
  /-- The number of rows. -/
  height : g.height = if columns = 0 then 0 else rows

end Symbolic

namespace Dae

variable {K : Type} [Scalar K]

/-- A block has a column for each symbol and a row for each expression. -/
theorem IsBlockOf.hasSize {es : List (Expr K)} {names : List String} {x : Grid (Expr K)}
    (hx : IsBlockOf es names x) : x.HasSize es.length names.length := by
  unfold IsBlockOf at hx
  split at hx
  · rename_i hnames
    subst hnames
    rw [hx]
    exact ⟨rfl, rfl⟩
  · rename_i hnames
    obtain ⟨hcolumns, hrows⟩ := jacobian_eq_ok_iff.mp hx
    refine ⟨hcolumns.trans (List.length_map _), ?_⟩
    rw [if_neg (mt List.eq_nil_of_length_eq_zero hnames)]
    exact (mapM_eq_ok.mp hrows).length_eq.symm

namespace Model

variable {m : Model K}

/-- The explicit form has a derivative for each state and an expression for each output. -/
theorem lengths_of_reduce {e : Explicit K} (h : m.reduce = .ok e) :
    e.derivatives.length = m.states.length ∧ e.outputs.length = m.outputs.length := by
  obtain ⟨solution, hsolution, hderivatives, houtputs⟩ := reduce_eq_ok h
  obtain ⟨hsquare, a, -, -, hsolve⟩ := solve_eq_ok hsolution
  have hlength : solution.length = m.unknowns.length := by
    rw [length_solveLinear hsolve, List.length_map, hsquare]
  have hstates : m.states.length ≤ m.unknowns.length := by
    simp [unknowns]
  refine ⟨?_, by rw [houtputs, List.length_map]⟩
  rw [hderivatives, List.length_take, hlength, min_eq_left hstates]

/-- **The sizes of the blocks of a linearization.** -/
theorem sizes_of_linearize {l : Linearization (Expr K)} (h : m.linearize = .ok l) :
    l.a.HasSize m.states.length m.states.length ∧ l.b.HasSize m.states.length m.inputs.length ∧
      l.c.HasSize m.outputs.length m.states.length ∧
      l.d.HasSize m.outputs.length m.inputs.length := by
  obtain ⟨e, he, ⟨ha, hc⟩, hb, hd⟩ := linearize_eq_ok h
  obtain ⟨hderivatives, houtputs⟩ := lengths_of_reduce he
  have ha' := ha.hasSize
  have hb' := hb.hasSize
  have hc' := hc.hasSize
  have hd' := hd.hasSize
  rw [hderivatives] at ha' hb'
  rw [houtputs] at hc' hd'
  exact ⟨ha', hb', hc', hd'⟩

end Model

end Dae

/-! ## The printed part -/

namespace Command

/-- **What is printed of a linearization**: the blocks of the model of the class, if there are any. -/
theorem linearizationPart_eq_ok {u : SourceUnit} {model text : String} :
    linearizationPart u model = .ok text ↔ ∃ c m l, u.classes.find? model = some c ∧
      Dae.Model.ofClass c = .ok m ∧ m.linearize = .ok l ∧ linearizationText l = text := by
  unfold linearizationPart linearizationOf
  rcases hc : u.classes.find? model with _ | c
  · exact ⟨nofun, fun ⟨_, _, _, h, _⟩ => nomatch h⟩
  dsimp only
  split
  · rename_i l hl
    obtain ⟨m, hm, hl⟩ := bind_eq_ok.mp hl
    rw [Except.ok.injEq]
    constructor
    · exact fun h => ⟨c, m, l, rfl, hm, hl, h⟩
    · rintro ⟨_, m', l', hc', hm', hl', h⟩
      cases hc'
      cases hm.symm.trans hm'
      cases hl.symm.trans hl'
      exact h
  · rename_i e he
    refine ⟨nofun, ?_⟩
    rintro ⟨_, m, l, hc', hm, hl, -⟩
    cases hc'
    cases he.symm.trans (bind_eq_ok.mpr ⟨m, hm, hl⟩)

/-- The line before the rows of a block: its name and its size. -/
def blockHead (name : String) (rows columns : ℕ) : String :=
  name ++ " (" ++ toString (if columns = 0 then 0 else rows) ++ "x" ++ toString columns ++ ") =\n"

/-- A line for each row of a block. -/
def rowsText (g : Grid (Expr Float)) : String :=
  String.join (g.rows.map fun row => "  [" ++ ", ".intercalate (row.map Expr.text) ++ "]\n")

/-- The head of a block shows its size. -/
theorem blockText_eq {g : Grid (Expr Float)} {rows columns : ℕ} (h : g.HasSize rows columns)
    (name : String) : blockText name g = blockHead name rows columns ++ rowsText g := by
  rw [blockText, blockHead, rowsText, h.width, h.height]

/-- **The sizes in the printed linearization** are the numbers of states, inputs and outputs. -/
theorem linearizationPart_sizes {u : SourceUnit} {model text : String}
    (h : linearizationPart u model = .ok text) :
    ∃ (m : Dae.Model Float) (l : Dae.Linearization (Expr Float)), m.linearize = .ok l ∧
      text = heading "LINEARIZATION" ++
        (blockHead "A" m.states.length m.states.length ++ rowsText l.a) ++
        (blockHead "B" m.states.length m.inputs.length ++ rowsText l.b) ++
        (blockHead "C" m.outputs.length m.states.length ++ rowsText l.c) ++
        (blockHead "D" m.outputs.length m.inputs.length ++ rowsText l.d) := by
  obtain ⟨-, m, l, -, -, hl, rfl⟩ := linearizationPart_eq_ok.mp h
  obtain ⟨ha, hb, hc, hd⟩ := Dae.Model.sizes_of_linearize hl
  refine ⟨m, l, hl, ?_⟩
  rw [linearizationText, blockText_eq ha, blockText_eq hb, blockText_eq hc, blockText_eq hd]

/-- The unit of the tank alone. -/
def tankUnit : SourceUnit := ⟨.ofList [("Tank", Dae.tank)], 0⟩

/-- The printed blocks of the tank. -/
def tankBlocks : String := "

========================================
LINEARIZATION
========================================
A (1x1) =
  [-(k*(1/(2*sqrt(h))))]
B (1x1) =
  [1]
C (1x1) =
  [k*(1/(2*sqrt(h)))]
D (1x1) =
  [0]
"

/-- The blocks of `der(h) = u - q` and `q = k * sqrt(h)`. -/
theorem linearizationPart_tank : linearizationPart tankUnit.numbered "Tank" = .ok tankBlocks := by
  have htext : Dae.tankModel.linearize.toOption.map linearizationText = some tankBlocks := by
    decide +kernel
  obtain ⟨l, hl, htext⟩ := Option.map_eq_some_iff.mp htext
  have hmodel : Dae.Model.ofClass (Dae.tank.number 0).1 = .ok Dae.tankModel := by
    rw [← Dae.Model.ofClass_erase, ClassDef.erase_number, Dae.Model.ofClass_erase]
    exact Dae.ofClass_tank
  refine linearizationPart_eq_ok.mpr ⟨_, Dae.tankModel, l, rfl, hmodel, ?_, htext⟩
  rcases hlinear : Dae.tankModel.linearize with e | l'
  · rw [hlinear] at hl
    cases hl
  · rw [hlinear] at hl
    cases hl
    rfl

end Command

end FlatModel
