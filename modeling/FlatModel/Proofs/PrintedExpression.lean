import FlatModel.Proofs.DoubleSigns
import FlatModel.Proofs.ResidualLaw

/-!
# Printed expressions are unambiguous

The print of an expression has only the parentheses that the strengths of its operators ask for.
It is read back as the expression, but for two things that do not change its value.

* `Reader.grammar`, `Reader.read?` — the grammar of prints, and the reader of a whole text.
* `Expr.onto`, `Expr.reread` — what is read of a print: sums group to the left, and a number with a
  minus sign is the opposite of one without.
* `Interpretation`, `Expr.meaning` — the value of an expression in exact arithmetic, at every state
  of its symbols; a time derivative depends on what its operand means.
* `Expr.meaning_reread` — what is read means the same.
* `Expr.Readable` — finite numbers, names that are words, and two prints that mean something else
  left out.
* `Expr.ReadsAt`, `Expr.IsRead` — the strengths of the print as levels of the reader;
  `IsRead.guarded` — parentheses stand where the reader needs them; `exists_isRead` — the induction
  over readable expressions.
* `Expr.read_text` — a print is read back as an expression of the same meaning, so time derivatives
  that print alike have operands that mean the same.
-/

namespace FlatModel.Symbolic

open Decimal
open Fragment (Token Spells isWord isMark multiplicative?)

/-! ## The grammar of prints -/

namespace Reader

/-- A name applied to arguments: a time derivative if the name says so. -/
def applied : String → List (Expr Float) → Expr Float
  | name, [a] => if name = "der" then .der a else .call name [a]
  | name, args => .call name args

/-- The grammar of prints: one sign, and marks for powers. -/
def grammar : Fragment.Grammar where
  plus := false
  powers := true
  call := applied

/-- The expression of a text, if nothing is left of it. -/
def read? (text : String) : Option (Expr Float) := grammar.sums.read? text

end Reader

open Reader

/-! ## Exact arithmetic -/

namespace Exact

variable {F : Functions ℚ}

/-- Operations that may change places with each other do so where they are defined. -/
theorem lift₂_lift₂ {f g : ℚ → ℚ → ℚ} (h : ∀ a b c, f a (g b c) = g (f a b) c) (x y z : Exact F) :
    lift₂ (fun a b => some (f a b)) x (lift₂ (fun a b => some (g a b)) y z) =
      lift₂ (fun a b => some (g a b)) (lift₂ (fun a b => some (f a b)) x y) z := by
  obtain ⟨_ | a⟩ := x
  · rfl
  obtain ⟨_ | b⟩ := y
  · rfl
  obtain ⟨_ | c⟩ := z
  · rfl
  exact congrArg (fun q => (⟨some q⟩ : Exact F)) (h a b c)

/-- A sum is added term by term. -/
theorem add_add (x y z : Exact F) :
    Scalar.add x (Scalar.add y z) = Scalar.add (Scalar.add x y) z :=
  lift₂_lift₂ (fun a b c => (add_assoc a b c).symm) x y z

/-- A difference is added term by term. -/
theorem add_sub (x y z : Exact F) :
    Scalar.add x (Scalar.sub y z) = Scalar.sub (Scalar.add x y) z :=
  lift₂_lift₂ (fun a b c => (add_sub_assoc a b c).symm) x y z

end Exact

/-- What names, powers, calls and time derivatives stand for at the states of type `S`.  A time
derivative depends on the values that its operand has at all states.  It is not known by its print:
`der(x*(-2))` and `der(x*-2)` have operands of the same value. -/
structure Interpretation (S : Type) where
  /-- The powers and calls. -/
  functions : Functions ℚ
  /-- The value of a name. -/
  symbol : String → S → Exact functions
  /-- The time derivative of a quantity. -/
  derivative : (S → Exact functions) → S → Exact functions

namespace Expr

variable {S : Type}

mutual

/-- The value of an expression in exact arithmetic, at every state. -/
def meaning (I : Interpretation S) : Expr Float → S → Exact I.functions
  | .num x => fun _ => Exact.ofDouble x
  | .sym n => I.symbol n
  | .der a => I.derivative (a.meaning I)
  | .neg a => fun s => Scalar.neg (a.meaning I s)
  | .add a b => fun s => Scalar.add (a.meaning I s) (b.meaning I s)
  | .sub a b => fun s => Scalar.sub (a.meaning I s) (b.meaning I s)
  | .mul a b => fun s => Scalar.mul (a.meaning I s) (b.meaning I s)
  | .div a b => fun s => Scalar.div (a.meaning I s) (b.meaning I s)
  | .pow a b => fun s => Scalar.pow (a.meaning I s) (b.meaning I s)
  | .call f args => fun s => (Scalar.call? f (meanings I args s)).getD ⟨none⟩

/-- The values of the expressions of a list. -/
def meanings (I : Interpretation S) : List (Expr Float) → S → List (Exact I.functions)
  | [] => fun _ => []
  | a :: rest => fun s => a.meaning I s :: meanings I rest s

end

/-! ## What is read of a print -/

/-- Whether the number is written with a minus sign; the negative zero is. -/
def isSigned (x : Float) : Bool := x.toBits >>> 63 == 1

/-- The terms of an expression added to another one, one after the other. -/
def onto (a : Expr Float) : Expr Float → Expr Float
  | .add b c => .add (a.onto b) c
  | .sub b c => .sub (a.onto b) c
  | b => .add a b

mutual

/-- What is read of the print of an expression: a sum has its terms one after the other, and a
number with a minus sign is the opposite of the number behind the sign. -/
def reread : Expr Float → Expr Float
  | .num x => if isSigned x then .neg (.num (-x)) else .num x
  | .sym n => .sym n
  | .der a => .der a.reread
  | .neg a => .neg a.reread
  | .add a b => a.reread.onto b.reread
  | .sub a b => .sub a.reread b.reread
  | .mul a b => .mul a.reread b.reread
  | .div a b => .div a.reread b.reread
  | .pow a b => .pow a.reread b.reread
  | .call f args => .call f (rereadAll args)

/-- What is read of the prints of the expressions of a list. -/
def rereadAll : List (Expr Float) → List (Expr Float)
  | [] => []
  | a :: rest => a.reread :: rereadAll rest

end

example : (Expr.mul (.sym "x") (.num (-2))).reread.text = "x*-2" := by decide +kernel

/-- The terms of a sum follow one after the other, whether or not they were added before. -/
theorem onto_onto (a b : Expr Float) : ∀ c : Expr Float, a.onto (b.onto c) = (a.onto b).onto c
  | .add c d => congrArg (Expr.add · d) (onto_onto a b c)
  | .sub c d => congrArg (Expr.sub · d) (onto_onto a b c)
  | .num _ | .sym _ | .der _ | .neg _ | .mul _ _ | .div _ _ | .pow _ _ | .call _ _ => rfl

/-- To add terms one after the other is to add their sum. -/
theorem meaning_onto (I : Interpretation S) (a : Expr Float) :
    ∀ b : Expr Float, (a.onto b).meaning I = (Expr.add a b).meaning I
  | .add b c => by
      funext s
      show Scalar.add ((a.onto b).meaning I s) _ = _
      rw [meaning_onto I a b]
      exact (Exact.add_add _ _ _).symm
  | .sub b c => by
      funext s
      show Scalar.sub ((a.onto b).meaning I s) _ = _
      rw [meaning_onto I a b]
      exact (Exact.add_sub _ _ _).symm
  | .num _ | .sym _ | .der _ | .neg _ | .mul _ _ | .div _ _ | .pow _ _ | .call _ _ => rfl

/-! ## Readable expressions -/

mutual

/-- An expression whose print can be read back: its numbers are finite, its names are words, no
negative zero is the base of a power, and no call looks like a time derivative. -/
def Readable : Expr Float → Prop
  | .num x => x.isFinite = true
  | .sym n => isWord n = true
  | .der a => a.Readable
  | .neg a => a.Readable
  | .add a b => a.Readable ∧ b.Readable
  | .sub a b => a.Readable ∧ b.Readable
  | .mul a b => a.Readable ∧ b.Readable
  | .div a b => a.Readable ∧ b.Readable
  | .pow a b => a.Readable ∧ b.Readable ∧ a ≠ .num (-0.0)
  | .call f args => AllReadable args ∧ isWord f = true ∧ ¬ (f = "der" ∧ args.length = 1)

/-- Whether all expressions of a list can be read back. -/
def AllReadable : List (Expr Float) → Prop
  | [] => True
  | a :: rest => a.Readable ∧ AllReadable rest

end

mutual

/-- **What is read of a print means the same.** -/
theorem meaning_reread (I : Interpretation S) :
    ∀ {e : Expr Float}, e.Readable → e.reread.meaning I = e.meaning I
  | .num x, h => by
      have hx : x.isFinite = true := h
      rw [reread]
      split
      · funext s
        show Scalar.neg (Exact.ofDouble (-x)) = Exact.ofDouble x
        rw [← Exact.ofDouble_neg (Double.isFinite_neg hx), Double.neg_neg]
      · rfl
  | .sym _, _ => rfl
  | .der a, h => congrArg I.derivative (meaning_reread I (e := a) h)
  | .neg a, h => by rw [reread, meaning, meaning, meaning_reread I (e := a) h]
  | .add a b, ⟨ha, hb⟩ => by
      rw [reread, meaning_onto, meaning, meaning, meaning_reread I ha, meaning_reread I hb]
  | .sub a b, ⟨ha, hb⟩ => by
      rw [reread, meaning, meaning, meaning_reread I ha, meaning_reread I hb]
  | .mul a b, ⟨ha, hb⟩ => by
      rw [reread, meaning, meaning, meaning_reread I ha, meaning_reread I hb]
  | .div a b, ⟨ha, hb⟩ => by
      rw [reread, meaning, meaning, meaning_reread I ha, meaning_reread I hb]
  | .pow a b, ⟨ha, hb, _⟩ => by
      rw [reread, meaning, meaning, meaning_reread I ha, meaning_reread I hb]
  | .call f args, ⟨hargs, _, _⟩ => by
      rw [reread, meaning, meaning, meanings_rereadAll I hargs]

/-- What is read of the prints of a list means the same. -/
theorem meanings_rereadAll (I : Interpretation S) :
    ∀ {es : List (Expr Float)}, AllReadable es → meanings I (rereadAll es) = meanings I es
  | [], _ => rfl
  | a :: rest, ⟨ha, hrest⟩ => by
      rw [rereadAll, meanings, meanings, meaning_reread I ha, meanings_rereadAll I hrest]

end

/-! ## Levels of the reader

The strength that an operand must have in print is the level at which the reader takes it. -/

/-- The tokens are read at every level up to the given strength. -/
structure ReadsAt (strength : Nat) (us : List Token) (t : Expr Float) : Prop where
  /-- The front of a sum. -/
  sum : grammar.ReadsRow .sum us t
  /-- The front of a product. -/
  product : 2 ≤ strength → grammar.ReadsRow .product us t
  /-- An operand of a product. -/
  operand : 3 ≤ strength → grammar.ReadsOperand .product us t
  /-- A primary. -/
  primary : 5 ≤ strength → grammar.ReadsPrimary us t

section levels

variable {us vs : List Token} {t : Expr Float} {m n : Nat}

/-- What is read at a level is read at the levels below it. -/
theorem ReadsAt.mono (h : ReadsAt n us t) (hmn : m ≤ n) : ReadsAt m us t :=
  ⟨h.sum, fun hm => h.product (hm.trans hmn), fun hm => h.operand (hm.trans hmn),
    fun hm => h.primary (hm.trans hmn)⟩

/-- A primary is read at every level. -/
theorem readsAt_of_primary (h : grammar.ReadsPrimary us t) : ReadsAt n us t :=
  ⟨h.operand.row.operand.row, fun _ => h.operand.row, fun _ => h.operand, fun _ => h⟩

/-- An operand of a product is read at every level but that of primaries. -/
theorem readsAt_of_operand (h : grammar.ReadsOperand .product us t) (hn : n < 5) : ReadsAt n us t :=
  ⟨h.row.operand.row, fun _ => h.row, fun _ => h, fun h5 => absurd hn h5.not_gt⟩

/-- A product is read at its own level. -/
theorem readsAt_of_product (h : grammar.ReadsRow .product us t) : ReadsAt 2 us t :=
  ⟨h.operand.row, fun _ => h, nofun, nofun⟩

/-- A sum is read at the lowest level. -/
theorem readsAt_of_sum (h : grammar.ReadsRow .sum us t) : ReadsAt 1 us t := ⟨h, nofun, nofun, nofun⟩

end levels

/-- The level of an expression: its strength, but a number with a minus sign is read as an
opposite. -/
def level : Expr Float → Nat
  | .num x => if isSigned x then 3 else 5
  | e => e.strength

/-- How the print of an expression is read: its tokens, the level, and what becomes of a sum to
which it is added without parentheses. -/
structure IsRead (e : Expr Float) (us : List Token) : Prop where
  /-- The tokens of the print. -/
  spells : Spells e.chars us
  /-- What is read of them. -/
  reads : ReadsAt e.level us e.reread
  /-- A sum goes on with the terms. -/
  onto : ∀ {ts : List Token} {a : Expr Float}, grammar.ReadsRow .sum ts a →
    grammar.ReadsRow .sum (ts ++ .mark '+' :: us) (a.onto e.reread)

section cases

variable {a b e : Expr Float} {us vs : List Token}

/-- What is no sum is added as one term. -/
theorem isRead_of_product {n : Nat} (hlevel : e.level = n) (hn : 2 ≤ n)
    (honto : ∀ a : Expr Float, a.onto e.reread = .add a e.reread) (hspells : Spells e.chars us)
    (hreads : ReadsAt n us e.reread) : IsRead e us where
  spells := hspells
  reads := hlevel ▸ hreads
  onto h := by
    rw [honto]
    exact h.join rfl (hreads.product hn).operand

/-- **Parentheses stand where the reader needs them**: an operand is read at the level of the
strength it must have. -/
theorem IsRead.guarded (h : IsRead e us) {m n : Nat}
    (hlevel : m ≤ e.strength → n ≤ e.level) :
    ∃ vs, Spells (guarded m e e.chars) vs ∧ ReadsAt n vs e.reread := by
  rw [Expr.guarded]
  by_cases hleast : e.strength < m
  · rw [if_pos hleast]
    exact ⟨_, (h.spells.closed rfl).mark rfl, readsAt_of_primary h.reads.sum.group⟩
  · rw [if_neg hleast]
    exact ⟨us, h.spells, h.reads.mono (hlevel (not_lt.mp hleast))⟩

/-- Every expression binds at least as strongly as a sum. -/
theorem one_le_strength (e : Expr Float) : 1 ≤ e.strength := by
  unfold strength
  split
  case h_6 x => split <;> decide
  all_goals decide

/-- No parentheses stand around an operand that may be a sum. -/
theorem guarded_one (e : Expr Float) (text : List Char) : guarded 1 e text = text :=
  if_neg (one_le_strength e).not_gt

/-- Up to the level of opposites, the level is not below the strength. -/
theorem le_level {n : Nat} (hn : n ≤ 3) (h : n ≤ e.strength) : n ≤ e.level := by
  unfold level
  split
  · split
    · exact hn
    · exact hn.trans (by decide)
  · exact h

/-- The level is not below the strength, but for the negative zero. -/
theorem strength_le_level (h : e.Readable) (hne : e ≠ .num (-0.0)) : e.strength ≤ e.level := by
  unfold level
  split
  · rename_i x
    have hx : x.isFinite = true := h
    split
    · rename_i hsigned
      rw [isSigned, Double.negative_eq, beq_iff_eq] at hsigned
      have hnegative : Scalar.isNegative x = true :=
        decide_eq_true (Double.lt_zero_of_negative hx hsigned fun hzero => hne (hzero ▸ rfl))
      rw [strength, if_pos hnegative]
      decide
    · rw [strength]
      split <;> decide
  · exact le_rfl

/-! ### Numbers -/

/-- A number is written as a numeral, behind a minus sign if it has one. -/
theorem exists_numeral_chars {x : Float} (hx : x.isFinite = true) :
    ∃ n : Numeral, n.negative = false ∧ n.toFloat = (if isSigned x then -x else x) ∧
      (Expr.num x).chars = (if isSigned x then ['-'] else []) ++
        (n.pointText ++ Numeral.exponentText false n.exponent) := by
  have hnegative : (Double.layout.numeral x).negative = isSigned x := by
    unfold Layout.numeral
    dsimp only
    split
    · exact Layout.negative_positional
    · split
      · exact Layout.negative_positional
      · rfl
  have htoFloat := Layout.toFloat_numeral Double.layout hx
  refine ⟨(Double.layout.numeral x).unsigned, rfl, ?_, ?_⟩
  · rw [Numeral.toFloat, hnegative] at htoFloat
    split
    · rename_i hsigned
      rw [if_pos hsigned] at htoFloat
      exact (Double.neg_neg _).symm.trans (congrArg (- ·) htoFloat)
    · rename_i hsigned
      rw [if_neg hsigned] at htoFloat
      exact htoFloat
  · have htext : Scalar.text x = (Double.layout.numeral x).text false :=
      Layout.text_eq Double.layout hx
    rw [Expr.chars, htext, Numeral.text, String.toList_ofList, Numeral.chars, Numeral.signText,
      hnegative, List.append_assoc]
    rfl

/-- A number is read, with its sign before it. -/
theorem exists_isRead_number {x : Float} (hx : x.isFinite = true) : ∃ us, IsRead (.num x) us := by
  obtain ⟨n, hunsigned, htoFloat, hchars⟩ := exists_numeral_chars hx
  have hspells := Spells.numeral false hunsigned
  have hreads := Fragment.Grammar.readsPrimary_number (g := grammar) n
  by_cases hsigned : isSigned x = true
  · rw [if_pos hsigned] at htoFloat hchars
    have hreread : (Expr.num x).reread = .neg (.num n.toFloat) := by
      rw [reread, if_pos hsigned, htoFloat]
    refine ⟨.mark '-' :: [.number n], isRead_of_product (if_pos hsigned) (by decide) ?_ ?_ ?_⟩
    · rw [hreread]
      exact fun _ => rfl
    · rw [hchars]
      exact hspells.mark rfl
    · rw [hreread]
      exact readsAt_of_operand (hreads.operand.sign (t := .mark '-') rfl) (by decide)
  · rw [if_neg hsigned] at htoFloat hchars
    have hreread : (Expr.num x).reread = .num n.toFloat := by
      rw [reread, if_neg hsigned, htoFloat]
    refine ⟨[.number n], isRead_of_product (if_neg hsigned) (by decide) ?_ ?_ ?_⟩
    · rw [hreread]
      exact fun _ => rfl
    · rw [hchars]
      exact hspells
    · rw [hreread]
      exact readsAt_of_primary hreads

/-! ### Operators -/

/-- A name is read. -/
theorem isRead_name {n : String} (h : isWord n = true) : IsRead (.sym n) [.name n] :=
  isRead_of_product (n := 5) rfl (by decide) (fun _ => rfl) (Spells.name h)
    (readsAt_of_primary (Fragment.Grammar.readsPrimary_name n))

/-- An opposite is read. -/
theorem IsRead.neg (h : IsRead a us) : ∃ vs, IsRead (.neg a) vs := by
  obtain ⟨vs, hspells, hreads⟩ := h.guarded (m := 3) (le_level le_rfl)
  have hsign := (hreads.operand le_rfl).sign (t := .mark '-') rfl
  exact ⟨_, isRead_of_product (n := 3) rfl (by decide) (fun _ => rfl) (hspells.mark rfl)
    (readsAt_of_operand hsign (by decide))⟩

/-- A sum is read, term by term. -/
theorem IsRead.add (ha : IsRead a us) (hb : IsRead b vs) :
    IsRead (.add a b) (us ++ .mark '+' :: vs) where
  spells := by
    rw [chars, guarded_one, guarded_one, List.append_assoc]
    exact ha.spells.spaced (hb.spells.blank.mark rfl)
  reads := readsAt_of_sum (hb.onto ha.reads.sum)
  onto {ts c} h := by
    have hterms := hb.onto (ha.onto h)
    rw [List.append_assoc, List.cons_append, ← onto_onto] at hterms
    exact hterms

/-- A difference is read, term by term on its left side. -/
theorem IsRead.sub (ha : IsRead a us) (hb : IsRead b vs) : ∃ ws, IsRead (.sub a b) ws := by
  obtain ⟨ws, hspells, hreads⟩ := hb.guarded (m := 2) (le_level (by decide))
  have hterm := (hreads.product le_rfl).operand
  refine ⟨us ++ .mark '-' :: ws, ?_, readsAt_of_sum (ha.reads.sum.join rfl hterm), ?_⟩
  · rw [chars, guarded_one, List.append_assoc]
    exact ha.spells.spaced (hspells.blank.mark rfl)
  · intro ts c h
    have hterms := (ha.onto h).join (t := .mark '-') rfl hterm
    rw [List.append_assoc] at hterms
    exact hterms

/-- A product or quotient is read. -/
theorem IsRead.factor {op : Expr Float → Expr Float → Expr Float} {c : Char}
    (hmark : isMark c = true) (hop : multiplicative? (.mark c) = some op)
    (hchars : (op a b).chars = Expr.guarded 2 a a.chars ++ [c] ++ Expr.guarded 3 b b.chars)
    (hlevel : (op a b).level = 2) (hreread : (op a b).reread = op a.reread b.reread)
    (honto : ∀ d : Expr Float, d.onto (op a.reread b.reread) = .add d (op a.reread b.reread))
    (ha : IsRead a us) (hb : IsRead b vs) : ∃ ws, IsRead (op a b) ws := by
  obtain ⟨us', hspells, hleft⟩ := ha.guarded (m := 2) (le_level (by decide))
  obtain ⟨vs', hspells', hright⟩ := hb.guarded (m := 3) (le_level le_rfl)
  have hreads := (hleft.product le_rfl).join (l := .product) hop (hright.operand le_rfl)
  refine ⟨us' ++ .mark c :: vs', isRead_of_product hlevel le_rfl ?_ ?_ ?_⟩
  · rw [hreread]
    exact honto
  · rw [hchars, List.append_assoc]
    exact hspells.marked hmark hspells'
  · rw [hreread]
    exact readsAt_of_product hreads

/-- A power is read, unless its base is the negative zero. -/
theorem IsRead.pow (ha : IsRead a us) (hb : IsRead b vs) (hread : a.Readable)
    (hne : a ≠ .num (-0.0)) : ∃ ws, IsRead (.pow a b) ws := by
  have hbase := strength_le_level hread hne
  obtain ⟨us', hspells, hleft⟩ := ha.guarded (m := 5) fun h => h.trans hbase
  obtain ⟨vs', hspells', hright⟩ := hb.guarded (m := 4) (n := 3) fun h =>
    le_level le_rfl ((by decide : 3 ≤ 4).trans h)
  have hreads := (hleft.primary le_rfl).power rfl (hright.operand le_rfl)
  refine ⟨us' ++ .mark '*' :: .mark '*' :: vs', isRead_of_product (n := 4) rfl (by decide)
    (fun _ => rfl) ?_ (readsAt_of_operand hreads (by decide))⟩
  rw [chars, List.append_assoc]
  exact hspells.marked rfl (hspells'.mark rfl)

/-! ### Arguments -/

/-- The characters of arguments are their prints with commas between them. -/
theorem argsChars_eq :
    ∀ es : List (Expr Float), argsChars es = [',', ' '].intercalate (es.map chars) ++ [')']
  | [] => rfl
  | [e] => by
      rw [argsChars, moreArgsChars, List.map_singleton, List.intercalate_singleton]
  | e :: f :: rest => by
      have hmore := argsChars_eq (f :: rest)
      rw [argsChars] at hmore
      rw [argsChars, moreArgsChars, List.append_assoc, hmore]
      simp [List.intercalate_cons_cons]

/-- What is read of a list is read of each of its expressions. -/
theorem rereadAll_eq : ∀ es : List (Expr Float), rereadAll es = es.map reread
  | [] => rfl
  | e :: rest => by rw [rereadAll, rereadAll_eq rest, List.map_cons]

variable {es : List (Expr Float)}

/-- A name with arguments is read if each of them is. -/
theorem exists_readsCall {f : String} (hword : isWord f = true)
    (h : ∀ e ∈ es, ∃ us, IsRead e us) :
    ∃ us, Spells (f.toList ++ '(' :: argsChars es) us ∧
      grammar.ReadsPrimary us (applied f (rereadAll es)) := by
  have hitems : ∀ e ∈ es, ∃ us, Spells e.chars us ∧ grammar.sums.ReadsArgument us e.reread := by
    intro e he
    obtain ⟨us, hread⟩ := h e he
    exact ⟨us, hread.spells, hread.reads.sum.argument⟩
  obtain ⟨us, harguments⟩ := Fragment.Token.Reader.exists_areArguments es hitems
  refine ⟨.name f :: .mark '(' :: us, ?_, ?_⟩
  · rw [argsChars_eq]
    exact (Spells.name hword).marked rfl harguments.spells
  · rw [rereadAll_eq]
    exact Fragment.Grammar.readsPrimary_call harguments.reads f

/-- A time derivative is read. -/
theorem IsRead.der (h : IsRead a us) : ∃ vs, IsRead (.der a) vs := by
  obtain ⟨vs, hspells, hreads⟩ :=
    exists_readsCall (f := "der") (by decide) (List.forall_mem_singleton.mpr ⟨us, h⟩)
  exact ⟨vs, isRead_of_product (n := 5) rfl (by decide) (fun _ => rfl) hspells
    (readsAt_of_primary hreads)⟩

/-- A call is read, unless it looks like a time derivative. -/
theorem exists_isRead_call {f : String} (h : ∀ e ∈ es, ∃ us, IsRead e us) (hword : isWord f = true)
    (hder : ¬ (f = "der" ∧ es.length = 1)) : ∃ vs, IsRead (.call f es) vs := by
  have happlied : applied f (rereadAll es) = .call f (rereadAll es) := by
    match es, hder with
    | [], _ => rfl
    | [_], hder => exact if_neg fun hf => hder ⟨hf, rfl⟩
    | _ :: _ :: _, _ => rfl
  obtain ⟨vs, hspells, hreads⟩ := exists_readsCall hword h
  rw [happlied] at hreads
  exact ⟨vs, isRead_of_product (n := 5) rfl (by decide) (fun _ => rfl) hspells
    (readsAt_of_primary hreads)⟩

end cases

mutual

/-- **The print of a readable expression is read.** -/
theorem exists_isRead : ∀ {e : Expr Float}, e.Readable → ∃ us, IsRead e us
  | .num x, h => exists_isRead_number (x := x) h
  | .sym _, h => ⟨_, isRead_name h⟩
  | .der a, h => by
      obtain ⟨us, ha⟩ := exists_isRead (e := a) h
      exact ha.der
  | .neg a, h => by
      obtain ⟨us, ha⟩ := exists_isRead (e := a) h
      exact ha.neg
  | .add a b, ⟨ha, hb⟩ => by
      obtain ⟨us, ha⟩ := exists_isRead ha
      obtain ⟨vs, hb⟩ := exists_isRead hb
      exact ⟨_, ha.add hb⟩
  | .sub a b, ⟨ha, hb⟩ => by
      obtain ⟨us, ha⟩ := exists_isRead ha
      obtain ⟨vs, hb⟩ := exists_isRead hb
      exact ha.sub hb
  | .mul a b, ⟨ha, hb⟩ => by
      obtain ⟨us, ha⟩ := exists_isRead ha
      obtain ⟨vs, hb⟩ := exists_isRead hb
      exact ha.factor (c := '*') rfl rfl rfl rfl rfl (fun _ => rfl) hb
  | .div a b, ⟨ha, hb⟩ => by
      obtain ⟨us, ha⟩ := exists_isRead ha
      obtain ⟨vs, hb⟩ := exists_isRead hb
      exact ha.factor (c := '/') rfl rfl rfl rfl rfl (fun _ => rfl) hb
  | .pow a b, ⟨ha, hb, hne⟩ => by
      obtain ⟨us, hbase⟩ := exists_isRead ha
      obtain ⟨vs, hexponent⟩ := exists_isRead hb
      exact hbase.pow hexponent ha hne
  | .call f args, ⟨hargs, hword, hder⟩ => exists_isRead_call (forall_isRead hargs) hword hder

/-- The prints of readable arguments are read. -/
theorem forall_isRead : ∀ {es : List (Expr Float)}, AllReadable es →
    ∀ e ∈ es, ∃ us, IsRead e us
  | [], _ => nofun
  | _ :: _, ⟨he, hrest⟩ => List.forall_mem_cons.mpr ⟨exists_isRead he, forall_isRead hrest⟩

end

/-- The print of a readable expression is read as the expression with its terms one after the
other. -/
theorem read?_text {e : Expr Float} (h : e.Readable) : Reader.read? e.text = some e.reread := by
  obtain ⟨us, he⟩ := exists_isRead h
  have hspells : Spells e.text.toList us := by
    rw [text, String.toList_ofList]
    exact he.spells
  exact he.reads.sum.read? hspells

/-- **Printing is unambiguous.** The print of a readable expression is read, to its end, as an
expression of the same meaning: the one with its terms one after the other and its negative numbers
as opposites.  So expressions whose time derivatives print alike have the same meaning. -/
theorem read_text {a : Expr Float} (ha : a.Readable) :
    (Reader.read? a.text = some a.reread ∧
      ∀ (S : Type) (I : Interpretation S), a.reread.meaning I = a.meaning I) ∧
    ∀ b : Expr Float, b.Readable → (Expr.der a).text = (Expr.der b).text →
      ∀ (S : Type) (I : Interpretation S), a.meaning I = b.meaning I := by
  refine ⟨⟨read?_text ha, fun S I => meaning_reread I ha⟩, ?_⟩
  intro b hb htext S I
  have hreads := read?_text (e := Expr.der a) ha
  rw [htext, read?_text (e := Expr.der b) hb, reread, reread, Option.some_inj] at hreads
  injection hreads with hreread
  rw [← meaning_reread I ha, ← meaning_reread I hb, hreread]

/-- The number `x` with a difference added to it. -/
def nestedSum : Expr Float :=
  .add (.sym "x") (.sub (.mul (.num (-2.5)) (.pow (.sym "y") (.num (-2))))
    (.div (.neg (.der (.sym "x"))) (.call "max" [.sym "y", .num (-0.0)])))

/-- The same terms one after the other, with opposites of numbers. -/
def rowSum : Expr Float :=
  .sub (.add (.sym "x") (.mul (.neg (.num 2.5)) (.pow (.sym "y") (.neg (.num 2)))))
    (.div (.neg (.der (.sym "x"))) (.call "max" [.sym "y", .neg (.num 0.0)]))

example : nestedSum.text = "x + -2.5*y**(-2) - -der(x)/max(y, -0)" := by decide +kernel

/-- Two sums that print alike have the same meaning. -/
theorem read_text_nestedSum : Reader.read? nestedSum.text = some nestedSum.reread ∧
    (Expr.der nestedSum).text = (Expr.der rowSum).text ∧
    ∀ (S : Type) (I : Interpretation S), nestedSum.meaning I = rowSum.meaning I := by
  have hnested : nestedSum.Readable := by
    simp only [nestedSum, Readable, AllReadable, ne_eq, reduceCtorEq]
    decide +kernel
  have hrow : rowSum.Readable := by
    simp only [rowSum, Readable, AllReadable, ne_eq, reduceCtorEq]
    decide +kernel
  have htext : (Expr.der nestedSum).text = (Expr.der rowSum).text := by decide +kernel
  exact ⟨(read_text hnested).1.1, htext, (read_text hnested).2 rowSum hrow htext⟩

end Expr

end FlatModel.Symbolic
