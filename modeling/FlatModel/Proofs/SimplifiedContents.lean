import FlatModel.Proofs.Leaves

/-!
# Simplification adds nothing

A simplified expression is no larger than the expression it comes from, and it consists of nothing
that was not there before, whatever the numbers are.

* `Expr.Content`, `Expr.contents` — symbols, functions with the number of their arguments and time
  derivatives, at any depth.
* `Expr.size_simplifyNeg_le`, `Expr.size_simplifyAdd_le`, … — how large one operator over given
  operands is when simplified; `Expr.size_simplify_le` — how large a whole expression is.
* `Expr.compositional_contents` — what is asked of contents is passed on by operators, so
  simplification keeps it.
* `Expr.simplify_adds_nothing` — size and contents of simplified expressions.
-/

namespace FlatModel.Symbolic.Expr

variable {K : Type}

/-! ## Contents -/

/-- What an expression consists of besides numbers and arithmetic. -/
inductive Content (K : Type) where
  /-- A symbol. -/
  | symbol (name : String)
  /-- A function that is called, with the number of its arguments. -/
  | function (name : String) (arity : Nat)
  /-- The time derivative of an expression. -/
  | derivative (operand : Expr K)

mutual

/-- The contents of an expression, those under time derivatives and in arguments included. -/
def contents : Expr K → List (Content K)
  | .num _ => []
  | .sym n => [.symbol n]
  | .der a => .derivative a :: a.contents
  | .neg a => a.contents
  | .add a b => a.contents ++ b.contents
  | .sub a b => a.contents ++ b.contents
  | .mul a b => a.contents ++ b.contents
  | .div a b => a.contents ++ b.contents
  | .pow a b => a.contents ++ b.contents
  | .call f args => .function f args.length :: contentsAll args

/-- The contents of the expressions of a list. -/
def contentsAll : List (Expr K) → List (Content K)
  | [] => []
  | a :: rest => a.contents ++ contentsAll rest

end

/-- The contents of a list are those of its expressions. -/
theorem mem_contentsAll {c : Content K} {args : List (Expr K)} :
    c ∈ contentsAll args ↔ ∃ a ∈ args, c ∈ a.contents := by
  induction args with
  | nil => simp [contentsAll]
  | cons a rest ih => simp [contentsAll, ih]

variable [Scalar K] {a b : Expr K}

/-! ## Size -/

omit [Scalar K] in
/-- No expression is smaller than a number. -/
theorem size_num_le (n : K) (a : Expr K) : (num n).size ≤ a.size := a.size_pos

/-- The size of a simplified opposite. -/
theorem size_simplifyNeg_le (a : Expr K) : (simplifyNeg a).size ≤ 1 + a.size := by
  cases a <;> simp only [simplifyNeg, size] <;> omega

/-- The size of a simplified product. -/
theorem size_simplifyMul_le (a b : Expr K) : (simplifyMul a b).size ≤ 1 + a.size + b.size := by
  fun_induction simplifyMul a b with
  | case1 m n => simp only [size]; omega
  | case2 a b => have := size_num_le Scalar.zero a; rw [zero]; omega
  | case3 a b | case4 a b => omega
  | case5 a b => have := size_simplifyNeg_le b; omega
  | case6 a b => have := size_simplifyNeg_le a; omega
  | case7 c b _ _ _ _ _ _ ih =>
      have := size_simplifyNeg_le (simplifyMul c b)
      simp only [size]
      omega
  | case8 a c _ _ _ _ _ _ _ ih =>
      have := size_simplifyNeg_le (simplifyMul a c)
      simp only [size]
      omega
  | case9 c d n _ _ _ _ _ _ ih | case11 m c d _ _ _ _ _ _ ih =>
      simp only [size] at ih ⊢
      omega
  | case10 a n | case12 a b => simp only [size]; omega

/-- The sizes of simplified sums and differences.  Both are proved together, because sums with an
opposite become differences and the other way round. -/
theorem size_simplifyAdd_simplifySub_le :
    (∀ a b : Expr K, (simplifyAdd a b).size ≤ 1 + a.size + b.size) ∧
    (∀ a b : Expr K, (simplifySub a b).size ≤ 1 + a.size + b.size) := by
  apply simplifyAdd.mutual_induct_unfolding
    (fun a b r => r.size ≤ 1 + a.size + b.size)
    (fun a b r => r.size ≤ 1 + a.size + b.size)
  case case1 | case9 =>
    intro m n
    simp only [size]
    omega
  case case2 | case3 | case10 =>
    intros
    omega
  case case4 | case5 | case13 =>
    intros
    simp only [size]
    omega
  case case6 =>
    intro a b _ _ n _ _ _ _
    have := size_num_le n b
    simp only [size] at this ⊢
    omega
  case case7 =>
    -- the second summand gives way to the number two and the product
    intro a b _ _ _ _ _ _ _
    have := size_simplifyMul_le two a
    have := size_num_le Scalar.two b
    simp only [two, size] at *
    omega
  case case8 | case16 =>
    intros
    simp only [size]
    omega
  case case11 =>
    intro a b _ _ _
    have := size_simplifyNeg_le b
    omega
  case case12 =>
    intro a b _ _ _ _
    have := size_num_le Scalar.zero a
    rw [zero]
    omega
  case case14 =>
    intro b _ n c _ _ _ _ _ ih
    have := size_num_le n b
    simp only [size] at *
    omega
  case case15 =>
    intro b _ n a _ _ _ _ _ _
    have := size_num_le n b
    simp only [size] at this ⊢
    omega

/-- The size of a simplified sum. -/
theorem size_simplifyAdd_le (a b : Expr K) : (simplifyAdd a b).size ≤ 1 + a.size + b.size :=
  size_simplifyAdd_simplifySub_le.1 a b

/-- The size of a simplified difference. -/
theorem size_simplifySub_le (a b : Expr K) : (simplifySub a b).size ≤ 1 + a.size + b.size :=
  size_simplifyAdd_simplifySub_le.2 a b

/-- The size of a simplified quotient. -/
theorem size_simplifyDiv_le (a b : Expr K) : (simplifyDiv a b).size ≤ 1 + a.size + b.size := by
  fun_induction simplifyDiv a b with
  | case1 m n | case2 m n => simp only [size]; omega
  | case3 a b => have := size_num_le Scalar.zero a; rw [zero]; omega
  | case4 a b => omega
  | case5 a b => have := size_simplifyNeg_le a; omega
  | case6 a b => have := size_num_le Scalar.one a; rw [one]; omega
  | case7 c b _ _ _ _ _ ih =>
      have := size_simplifyNeg_le (simplifyDiv c b)
      simp only [size]
      omega
  | case8 a c _ _ _ _ _ _ ih =>
      have := size_simplifyNeg_le (simplifyDiv a c)
      simp only [size]
      omega
  | case9 a b => simp only [size]; omega

/-- The size of a simplified power. -/
theorem size_simplifyPow_le (a b : Expr K) : (simplifyPow a b).size ≤ 1 + a.size + b.size := by
  have hnumber : ∀ n : K, (num n).size ≤ 1 + a.size + b.size := fun n => by
    have := size_num_le n a
    omega
  unfold simplifyPow
  split
  · exact hnumber _
  · split_ifs
    · exact hnumber _
    · omega
    · exact hnumber _
    · simp only [size]
      omega

/-- The size of a simplified call. -/
theorem size_simplifyCall_le (f : String) (args : List (Expr K)) :
    (simplifyCall f args).size ≤ 1 + sizeAll args := by
  unfold simplifyCall
  split <;> simp only [size] <;> omega

omit [Scalar K] in
/-- An operator that adds at most one node, over operands that got no larger. -/
theorem size_le_of_operands {op : Expr K → Expr K → Expr K} {a' b' : Expr K}
    (hop : ∀ a b, (op a b).size ≤ 1 + a.size + b.size) (ha : a'.size ≤ a.size)
    (hb : b'.size ≤ b.size) : (op a' b').size ≤ a.size + b.size + 1 := by
  have := hop a' b'
  omega

mutual

/-- **A simplified expression is no larger.** -/
theorem size_simplify_le : ∀ e : Expr K, e.simplify.size ≤ e.size
  | .num _ | .sym _ => Nat.le_refl _
  | .der a => Nat.succ_le_succ (size_simplify_le a)
  | .neg a => by
      have ha := size_simplify_le a
      have := size_simplifyNeg_le a.simplify
      rw [simplify, size]
      omega
  | .add a b => size_le_of_operands size_simplifyAdd_le (size_simplify_le a) (size_simplify_le b)
  | .sub a b => size_le_of_operands size_simplifySub_le (size_simplify_le a) (size_simplify_le b)
  | .mul a b => size_le_of_operands size_simplifyMul_le (size_simplify_le a) (size_simplify_le b)
  | .div a b => size_le_of_operands size_simplifyDiv_le (size_simplify_le a) (size_simplify_le b)
  | .pow a b => size_le_of_operands size_simplifyPow_le (size_simplify_le a) (size_simplify_le b)
  | .call f args => by
      have hargs := sizeAll_simplifyAll_le args
      have := size_simplifyCall_le f (simplifyAll args)
      rw [simplify, size]
      omega

/-- Simplified expressions of a list are no larger together. -/
theorem sizeAll_simplifyAll_le (args : List (Expr K)) :
    sizeAll (simplifyAll args) ≤ sizeAll args := by
  cases args with
  | nil => exact Nat.le_refl _
  | cons a rest => exact Nat.add_le_add (size_simplify_le a) (sizeAll_simplifyAll_le rest)

end

/-! ## What is asked of contents -/

/-- **What is asked of all contents is passed on by operators.** -/
theorem compositional_contents (asked : Content K → Prop) :
    Compositional fun e : Expr K => ∀ c ∈ e.contents, asked c where
  toNumberClosed := numberClosed_of_num fun _ => List.forall_mem_nil _
  neg_iff := Iff.rfl
  add_iff := List.forall_mem_append
  sub_iff := List.forall_mem_append
  mul_iff := List.forall_mem_append
  div_iff := List.forall_mem_append
  pow_iff := List.forall_mem_append
  args h a ha c hc := h c (List.mem_cons_of_mem _ (mem_contentsAll.mpr ⟨a, ha, hc⟩))
  call h hlength hargs c hc := by
    rcases List.mem_cons.mp hc with rfl | hc
    · rw [hlength]
      exact h _ List.mem_cons_self
    · obtain ⟨a, ha, hc⟩ := mem_contentsAll.mp hc
      exact hargs a ha c hc

/-- The contents of a simplified opposite. -/
theorem contents_simplifyNeg_subset (a : Expr K) : (simplifyNeg a).contents ⊆ a.contents :=
  (compositional_contents (· ∈ a.contents)).simplifyNeg fun _ => id

/-- The contents of an operator over two operands, if it passes on what is asked of them. -/
theorem contents_subset_append {op : Expr K → Expr K → Expr K}
    (h : ∀ {p : Expr K → Prop}, Compositional p → ∀ {a b}, p a → p b → p (op a b)) (a b : Expr K) :
    (op a b).contents ⊆ a.contents ++ b.contents :=
  h (compositional_contents (· ∈ a.contents ++ b.contents)) (fun _ => List.mem_append_left _)
    fun _ => List.mem_append_right _

/-- The contents of a simplified call. -/
theorem contents_simplifyCall_subset (f : String) (args : List (Expr K)) :
    (simplifyCall f args).contents ⊆ .function f args.length :: contentsAll args :=
  (compositional_contents (· ∈ (call f args).contents)).simplifyCall fun _ => id

/-- **What is asked of symbols and functions only** is kept by simplification. -/
theorem forall_contents_simplify {asked : Content K → Prop} (hder : ∀ a, asked (.derivative a))
    {e : Expr K} (he : ∀ c ∈ e.contents, asked c) : ∀ c ∈ e.simplify.contents, asked c := by
  refine (compositional_contents asked).simplify (fun ih ha => ?_) he
  rw [contents, List.forall_mem_cons] at ha ⊢
  exact ⟨hder _, ih ha.2⟩

/-- **An expression under whose time derivatives there is nothing to simplify** has no new contents
when it is simplified. -/
theorem contents_simplify_subset {e : Expr K}
    (he : ∀ a, .derivative a ∈ e.contents → a.simplify = a) : e.simplify.contents ⊆ e.contents := by
  have hasked : ∀ c ∈ e.simplify.contents,
      c ∈ e.contents ∧ ∀ a, c = .derivative a → a.simplify = a := by
    refine (compositional_contents _).simplify (fun {a} _ ha => ?_) fun c hc =>
      ⟨hc, fun a ha => he a (ha ▸ hc)⟩
    rw [(ha _ List.mem_cons_self).2 a rfl]
    exact ha
  exact fun c hc => (hasked c hc).1

/-! ## Size and contents -/

/-- **Simplification adds nothing.**  Whatever the numbers are, a simplified expression has no more
nodes than the expression, and its symbols and the functions called in it, told apart by the number
of their arguments, occur in the expression.  So do its time derivatives if there is nothing to
simplify under those of the expression.  One operator over any operands, simplified or not, has at
most one node more than these when it is simplified, and no contents but theirs. -/
theorem simplify_adds_nothing (e : Expr K) :
    e.simplify.size ≤ e.size ∧
    (∀ n, .symbol n ∈ e.simplify.contents → .symbol n ∈ e.contents) ∧
    (∀ f k, .function f k ∈ e.simplify.contents → .function f k ∈ e.contents) ∧
    ((∀ a, .derivative a ∈ e.contents → a.simplify = a) →
      ∀ a, .derivative a ∈ e.simplify.contents → .derivative a ∈ e.contents) ∧
    (∀ a : Expr K, (simplifyNeg a).size ≤ 1 + a.size ∧ (simplifyNeg a).contents ⊆ a.contents) ∧
    (∀ op ∈ [simplifyAdd, simplifySub, simplifyMul, simplifyDiv, simplifyPow], ∀ a b : Expr K,
      (op a b).size ≤ 1 + a.size + b.size ∧ (op a b).contents ⊆ a.contents ++ b.contents) ∧
    ∀ f, ∀ args : List (Expr K), (simplifyCall f args).size ≤ 1 + sizeAll args ∧
      (simplifyCall f args).contents ⊆ .function f args.length :: contentsAll args := by
  have hnames : ∀ c ∈ e.simplify.contents, (∃ a, c = .derivative a) ∨ c ∈ e.contents :=
    forall_contents_simplify (fun a => .inl ⟨a, rfl⟩) fun _ => .inr
  refine ⟨size_simplify_le e, fun n hn => ?_, fun f k hf => ?_,
    fun he a ha => contents_simplify_subset he ha,
    fun a => ⟨size_simplifyNeg_le a, contents_simplifyNeg_subset a⟩, ?_,
    fun f args => ⟨size_simplifyCall_le f args, contents_simplifyCall_subset f args⟩⟩
  · exact (hnames _ hn).resolve_left nofun
  · exact (hnames _ hf).resolve_left nofun
  · simp only [List.forall_mem_cons]
    refine ⟨fun a b => ⟨size_simplifyAdd_le a b, ?_⟩, fun a b => ⟨size_simplifySub_le a b, ?_⟩,
      fun a b => ⟨size_simplifyMul_le a b, ?_⟩, fun a b => ⟨size_simplifyDiv_le a b, ?_⟩,
      fun a b => ⟨size_simplifyPow_le a b, ?_⟩, List.forall_mem_nil _⟩
    · exact contents_subset_append (fun hp => hp.simplifyAdd_simplifySub.1 _ _) a b
    · exact contents_subset_append (fun hp => hp.simplifyAdd_simplifySub.2 _ _) a b
    · exact contents_subset_append (fun hp => hp.simplifyMul) a b
    · exact contents_subset_append (fun hp => hp.simplifyDiv) a b
    · exact contents_subset_append (fun hp => hp.simplifyPow) a b

/-- `der(x) + -(nan * (y + y))`: nine nodes, one time derivative. -/
theorem simplify_adds_nothing_nan :
    let e : Expr Float := add (der (sym "x"))
      (neg (mul (num (0.0 / 0.0)) (add (sym "y") (sym "y"))))
    e.simplify.size ≤ 9 ∧ ∀ a, .derivative a ∈ e.simplify.contents → a = sym "x" := by
  intro e
  have hcontents : ∀ a, .derivative a ∈ e.contents → a = sym "x" := by simp [e, contents]
  obtain ⟨hsize, -, -, hderivatives, -⟩ := simplify_adds_nothing e
  refine ⟨hsize, fun a ha => hcontents a (hderivatives (fun a ha => ?_) a ha)⟩
  rw [hcontents a ha]
  rfl

end FlatModel.Symbolic.Expr
