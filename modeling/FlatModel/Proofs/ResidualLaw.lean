import FlatModel.Dae.Lowering
import FlatModel.Proofs.FragmentReader
import FlatModel.Proofs.ShortestDigits
import FlatModel.Proofs.Translation
import FlatModel.Proofs.WrittenTree

/-!
# The residual in source text

The generated source has no parentheses around operands.  Where an expression is grouped the way the
precedences of the source read it anyway, the text of an equation stands for its residual.

* `Literal.IsNumber.exists_numeral` — a numeric literal is written as a numeral of its value.
* `Expression.Grouped` — expressions whose operands need no parentheses.
* `Expression.IsRead` — how the text of an expression is read: its tokens, the level at which they
  are read, and the expression read, which has the value of the lowered one.
* `IsRead.sign`, `IsRead.term`, `IsRead.factor`, `IsRead.power`, `AreRead.call` — one lemma for each
  way to put expressions together; `Grouped.exists_isRead` — the induction over grouped expressions.
* `Equation.read_translation` — the text of a grouped equation has the value of its residual.
-/

namespace FlatModel

open Decimal Symbolic Emission Fragment

/-! ## Numbers -/

/-- The numeral of a whole number below `2 ^ 64` has its value. -/
theorem Decimal.Numeral.toFloat_ofInt {n : Int} (h : n.natAbs < 2 ^ 64) :
    (ofInt n).toFloat = Float.ofInt n := by
  have hdigits : (Nat.toDigits 10 n.natAbs).length ≤ 20 :=
    (Nat.length_toDigits_le_iff (by decide) (by decide)).mpr (h.trans (by decide))
  have hmagnitude : (ofInt n).magnitude = Float.ofNat n.natAbs := by
    unfold magnitude scale ofInt
    by_cases hzero : n.natAbs = 0
    · rw [if_pos hzero, hzero]
      rfl
    · dsimp only
      rw [if_neg hzero, if_neg (by rw [Option.getD_none]; omega),
        if_neg (by rw [Option.getD_none]; omega)]
      rfl
  rw [toFloat, hmagnitude]
  cases n with
  | ofNat n => rfl
  | negSucc n => exact if_pos (decide_eq_true (Int.negSucc_lt_zero n))

/-- A numeral without its sign. -/
def Decimal.Numeral.unsigned (n : Numeral) : Numeral := { n with negative := false }

/-- A finite double is written as its numeral. -/
theorem Decimal.Layout.text_eq (l : Layout) {x : Float} (h : x.isFinite = true) :
    l.text x = (l.numeral x).text l.marksPlus := by
  rw [text, (Double.kind_of_isFinite h).1, (Double.kind_of_isFinite h).2]
  rfl

namespace Literal

/-- Whether the literal is a finite number. -/
def IsNumber : Literal → Prop
  | .integer _ => True
  | .real x => x.isFinite = true
  | _ => False

/-- **A numeric literal is written as a numeral of its value.** -/
theorem IsNumber.exists_numeral {value : Literal} (h : value.IsNumber) :
    ∃ n : Numeral, value.text = n.text false ∧
      Dae.lowerLiteral value = .ok (Expr.num n.toFloat) := by
  cases value with
  | integer v =>
      have hbound : v.toInt.natAbs < 2 ^ 64 := by
        have hmin := v.le_toInt
        have hmax := v.toInt_lt
        omega
      exact ⟨.ofInt v.toInt, rfl, by rw [Numeral.toFloat_ofInt hbound]; rfl⟩
  | real x =>
      have hx : x.isFinite = true := h
      exact ⟨realLayout.numeral x, realLayout.text_eq hx, by rw [Layout.toFloat_numeral _ hx]; rfl⟩
  | boolean _ | string _ => cases h

end Literal

/-! ## Grouped expressions -/

namespace Expression

/-- Whether the expression is a sum or a difference of two operands. -/
def IsSum : Expression → Prop
  | .operation _ operator [_, _] => operator = "+" ∨ operator = "-"
  | _ => False

/-- Whether the expression is a product or a quotient of two operands. -/
def IsProduct : Expression → Prop
  | .operation _ operator [_, _] => operator = "*" ∨ operator = "/"
  | _ => False

/-- An expression over the given names whose operands are those that the precedences of the source
give to its operators: no operand of a sign is a sum or a product, no right operand of a sum is a
sum, no operand of a product is a sum and no right one a product. -/
inductive Grouped (names : List String) : Expression → Prop where
  /-- A finite number. -/
  | number (id : Nat) {value : Literal} (h : value.IsNumber) : Grouped names (.literal id value)
  /-- A reference to one of the names. -/
  | reference (id : Nat) {name : String} (hword : isWord name = true) (h : name ∈ names) :
      Grouped names (.reference id name)
  /-- A sign before an operand. -/
  | sign (id : Nat) {operator : String} {a : Expression} (h : operator = "+" ∨ operator = "-")
      (ha : Grouped names a) (hsum : ¬ a.IsSum) (hproduct : ¬ a.IsProduct) :
      Grouped names (.operation id operator [a])
  /-- A sum or a difference. -/
  | sum (id : Nat) {operator : String} {a b : Expression} (h : operator = "+" ∨ operator = "-")
      (ha : Grouped names a) (hb : Grouped names b) (hright : ¬ b.IsSum) :
      Grouped names (.operation id operator [a, b])
  /-- A product or a quotient. -/
  | product (id : Nat) {operator : String} {a b : Expression}
      (h : operator = "*" ∨ operator = "/") (ha : Grouped names a) (hb : Grouped names b)
      (hleft : ¬ a.IsSum) (hright : ¬ b.IsSum) (hproduct : ¬ b.IsProduct) :
      Grouped names (.operation id operator [a, b])
  /-- A power. -/
  | power (id : Nat) {a b : Expression} (ha : Grouped names a) (hb : Grouped names b) :
      Grouped names (.operation id "^" [a, b])
  /-- A function that is called by its name or by the name that the source has for it. -/
  | call (id : Nat) {function : String} {args : List Expression} (hword : isWord function = true)
      (hder : function ≠ "der") (hname : function ∉ callTable.map Prod.snd)
      (hargs : ∀ a ∈ args, Grouped names a) : Grouped names (.operation id function args)

end Expression

/-! ## Calls -/

namespace Fragment

/-- A word is written as a call. -/
theorem renderOperation_of_isWord {function : String} (hword : isWord function = true)
    (hder : function ≠ "der") (operands : List String) :
    Emission.renderOperation function operands = Emission.renderCall function operands := by
  have hunary : ¬ Emission.unaryOperators.contains function = true := by
    simp [Emission.unaryOperators, ne_of_isWord hword]
  have hbinary : ¬ Emission.binaryOperators.contains function = true := by
    simp [Emission.binaryOperators, ne_of_isWord hword]
  unfold Emission.renderOperation
  split
  · rw [if_neg hder, if_neg hunary]
  · rw [if_neg hbinary]
  · rfl

/-- A word is lowered to a call. -/
theorem lowerOperation_of_isWord {function : String} (hword : isWord function = true)
    (hder : function ≠ "der") (s : Dae.Scope) (args : List (Expr Float)) :
    Dae.lowerOperation s function args = .ok (.call function args) := by
  have hne : ∀ {operator : String}, operator ∈ ["+", "-", "*", "/", "^"] → function ≠ operator :=
    ne_of_isWord hword
  unfold Dae.lowerOperation
  split
  · rw [if_neg hder, if_neg (hne (by decide)), if_neg (hne (by decide))]
  · rw [Dae.arithmetic?, if_neg (hne (by decide)), if_neg (hne (by decide)),
      if_neg (hne (by decide)), if_neg (hne (by decide)), if_neg (hne (by decide))]
    rfl
  · rfl

end Fragment

/-! ## Reading expressions -/

namespace Expression

/-- How the text of an expression is read: it has the tokens `ts`, which are read as `t` at the level
of the expression, and `t` always has the value of the lowered expression `r`. -/
structure IsRead (s : Dae.Scope) (e : Expression) (ts : List Token) (t r : Expr Float) : Prop where
  /-- The tokens of the text. -/
  spells : Spells e.translation.toList ts
  /-- The front of a sum. -/
  sum : grammar.ReadsRow .sum ts t
  /-- The front of a product, unless the expression is a sum. -/
  product : ¬ e.IsSum → grammar.ReadsRow .product ts t
  /-- An operand of a sign, unless the expression is a sum or a product. -/
  signed : ¬ e.IsSum → ¬ e.IsProduct → grammar.ReadsOperand .product ts t
  /-- The lowered expression. -/
  lowers : Dae.lower s e = .ok r
  /-- The values. -/
  value : ∀ env, t.eval env = r.eval env

section cases

variable {s : Dae.Scope} {id : Nat} {a b : Expression} {ts us : List Token} {t r u w : Expr Float}

/-- What is read as an operand of a sign is read at every level. -/
theorem IsRead.of_signed {e : Expression} (hspells : Spells e.translation.toList ts)
    (hsigned : grammar.ReadsOperand .product ts t) (hlowers : Dae.lower s e = .ok r)
    (hvalue : ∀ env, t.eval env = r.eval env) : IsRead s e ts t r :=
  ⟨hspells, hsigned.row.operand.row, fun _ => hsigned.row, fun _ _ => hsigned, hlowers, hvalue⟩

/-- A number is read, with its sign before it. -/
theorem exists_isRead_number {value : Literal} (h : value.IsNumber) :
    ∃ ts t r, IsRead s (.literal id value) ts t r := by
  obtain ⟨n, htext, hlowers⟩ := h.exists_numeral
  have hunsigned := Spells.numeral false (n := n.unsigned) rfl
  have hread := (Grammar.readsPrimary_number (g := grammar) n.unsigned).operand
  have hchars : value.text.toList = n.signText ++ (n.unsigned.pointText ++
      Numeral.exponentText false n.unsigned.exponent) := by
    rw [htext, Numeral.text, String.toList_ofList, Numeral.chars, List.append_assoc]
    rfl
  rcases hnegative : n.negative with _ | _
  · have htoFloat : n.unsigned.toFloat = n.toFloat := by
      rw [Numeral.toFloat, Numeral.toFloat, hnegative]
      rfl
    refine ⟨_, _, _, .of_signed ?_ hread hlowers ?_⟩
    · rw [translation, hchars, Numeral.signText, hnegative]
      exact hunsigned
    · intro env
      rw [htoFloat]
  · have htoFloat : n.toFloat = -n.unsigned.toFloat := by
      rw [Numeral.toFloat, Numeral.toFloat, hnegative]
      rfl
    refine ⟨_, _, _, .of_signed ?_ (hread.sign (t := .mark '-') rfl) hlowers ?_⟩
    · rw [translation, hchars, Numeral.signText, hnegative]
      exact hunsigned.mark rfl
    · intro env
      rw [Expr.eval, Expr.eval, Expr.eval, htoFloat]
      rfl

/-- A reference is read as the identifier of its symbol. -/
theorem isRead_reference {name : String} (hword : isWord name = true) (h : name ∈ s.names) :
    IsRead s (.reference id name) [.name (Identifier.sanitize name)]
      (.sym (Identifier.sanitize name)) (.sym (Identifier.sanitize name)) := by
  have hreads := Grammar.readsPrimary_name (g := grammar) (Identifier.sanitize name)
  refine .of_signed (Spells.name (isWord_sanitize hword)) hreads.operand ?_ fun _ => rfl
  rw [Dae.lower, Dae.Scope.resolve, if_pos (List.contains_iff_mem.mpr h)]

/-- A sign is written before its operand. -/
theorem spells_sign {operator : String} {c : Char} (h : unaryOperators.contains operator = true)
    (hder : operator ≠ "der") (hchar : operator.toList = [c]) (hmark : isMark c = true)
    (ha : Spells a.translation.toList ts) :
    Spells (operation id operator [a]).translation.toList (.mark c :: ts) := by
  have htext : (operation id operator [a]).translation.toList = c :: ' ' :: a.translation.toList := by
    rw [translation, translations, translations, renderOperation, if_neg hder, if_pos h,
      String.toList_append, String.toList_append, hchar]
    rfl
  rw [htext]
  exact ha.blank.mark hmark

/-- A sign is read before its operand. -/
theorem IsRead.sign {operator : String} (h : operator = "+" ∨ operator = "-")
    (ha : IsRead s a ts t r) (hsum : ¬ a.IsSum) (hproduct : ¬ a.IsProduct) :
    ∃ ts t r, IsRead s (.operation id operator [a]) ts t r := by
  have hsigned := ha.signed hsum hproduct
  rcases h with rfl | rfl
  · have hspells : Spells (operation id "+" [a]).translation.toList (.mark '+' :: ts) :=
      spells_sign (by decide) (by decide) rfl rfl ha.spells
    refine ⟨_, _, r, .of_signed hspells (hsigned.sign rfl) ?_ ha.value⟩
    rw [Dae.lower, Dae.lowerAll, Dae.lowerAll, ha.lowers]
    rfl
  · have hspells : Spells (operation id "-" [a]).translation.toList (.mark '-' :: ts) :=
      spells_sign (by decide) (by decide) rfl rfl ha.spells
    refine ⟨_, _, .neg r, .of_signed hspells (hsigned.sign rfl) ?_ ?_⟩
    · rw [Dae.lower, Dae.lowerAll, Dae.lowerAll, ha.lowers]
      rfl
    · intro env
      rw [Expr.eval, Expr.eval, ha.value]

/-- An operator between two operands: how it is written, what it is lowered to, and that the value
is one of the values of the operands. -/
structure Between (operator : String) (c : Char) (op : Expr Float → Expr Float → Expr Float) :
    Prop where
  /-- It is written between the operands. -/
  binary : binaryOperators.contains operator = true
  /-- It is a single character. -/
  char : operator.toList = [c]
  /-- The character is a token of its own. -/
  mark : isMark c = true
  /-- The lowered operation. -/
  arithmetic : ∀ a b, Dae.arithmetic? operator a b = some (op a b)
  /-- The value depends on the values of the operands only. -/
  value : ∀ {t r u w : Expr Float} {env}, t.eval env = r.eval env → u.eval env = w.eval env →
    (op t u).eval env = (op r w).eval env

theorem between_add : Between "+" '+' .add where
  binary := by decide
  char := rfl
  mark := rfl
  arithmetic _ _ := rfl
  value ht hu := by rw [Expr.eval, Expr.eval, ht, hu]

theorem between_sub : Between "-" '-' .sub where
  binary := by decide
  char := rfl
  mark := rfl
  arithmetic _ _ := rfl
  value ht hu := by rw [Expr.eval, Expr.eval, ht, hu]

theorem between_mul : Between "*" '*' .mul where
  binary := by decide
  char := rfl
  mark := rfl
  arithmetic _ _ := rfl
  value ht hu := by rw [Expr.eval, Expr.eval, ht, hu]

theorem between_div : Between "/" '/' .div where
  binary := by decide
  char := rfl
  mark := rfl
  arithmetic _ _ := rfl
  value ht hu := by rw [Expr.eval, Expr.eval, ht, hu]

section between

variable {operator : String} {c : Char} {op : Expr Float → Expr Float → Expr Float}
  (h : Between operator c op)

include h

/-- The text of an operator between operands. -/
theorem Between.spells (ha : Spells a.translation.toList ts) (hb : Spells b.translation.toList us) :
    Spells (operation id operator [a, b]).translation.toList (ts ++ .mark c :: us) := by
  have htext : (operation id operator [a, b]).translation.toList =
      a.translation.toList ++ ' ' :: c :: ' ' :: b.translation.toList := by
    rw [translation, translations, translations, translations, renderOperation, if_pos h.binary]
    simp only [String.toList_append, h.char, List.append_assoc]
    rfl
  rw [htext]
  exact ha.spaced (hb.blank.mark h.mark)

/-- An operation with lowered operands. -/
theorem Between.lowers (ha : Dae.lower s a = .ok r) (hb : Dae.lower s b = .ok w) :
    Dae.lower s (.operation id operator [a, b]) = .ok (op r w) := by
  rw [Dae.lower, Dae.lowerAll, Dae.lowerAll, Dae.lowerAll, ha, hb]
  show Except.ok ((Dae.arithmetic? operator r w).getD _) = _
  rw [h.arithmetic]
  rfl

/-- A sum is read: the left operand may be one, the right one may be a product. -/
theorem IsRead.term (hadditive : additive? (.mark c) = some op) (ha : IsRead s a ts t r)
    (hb : IsRead s b us u w) (hright : ¬ b.IsSum)
    (hsum : IsSum (.operation id operator [a, b])) :
    IsRead s (.operation id operator [a, b]) (ts ++ .mark c :: us) (op t u) (op r w) where
  spells := h.spells ha.spells hb.spells
  sum := ha.sum.join hadditive (hb.product hright).operand
  product hne := absurd hsum hne
  signed hne := absurd hsum hne
  lowers := h.lowers ha.lowers hb.lowers
  value env := h.value (ha.value env) (hb.value env)

/-- A product is read: the left operand may be one, the right one is an operand of a sign. -/
theorem IsRead.factor (hmultiplicative : multiplicative? (.mark c) = some op)
    (ha : IsRead s a ts t r) (hb : IsRead s b us u w) (hleft : ¬ a.IsSum) (hright : ¬ b.IsSum)
    (hproduct : ¬ b.IsProduct) (hoperation : IsProduct (.operation id operator [a, b])) :
    IsRead s (.operation id operator [a, b]) (ts ++ .mark c :: us) (op t u) (op r w) := by
  have hreads := (ha.product hleft).join (l := .product) hmultiplicative (hb.signed hright hproduct)
  exact {
    spells := h.spells ha.spells hb.spells
    sum := hreads.operand.row
    product := fun _ => hreads
    signed := fun _ hne => absurd hoperation hne
    lowers := h.lowers ha.lowers hb.lowers
    value := fun env => h.value (ha.value env) (hb.value env) }

end between

/-! ### Arguments -/

/-- How the texts of arguments are read. -/
structure AreRead (s : Dae.Scope) (es : List Expression) (ts : List Token)
    (as rs : List (Expr Float)) : Prop where
  /-- The tokens of the texts, and the arguments that are read. -/
  arguments : grammar.sums.AreArguments ((translations es).map String.toList) ts as
  /-- The lowered arguments. -/
  lowers : Dae.lowerAll s es = .ok rs
  /-- The values. -/
  values : ∀ env, Expr.evalAll env as = Expr.evalAll env rs

/-- The text of an expression is read as an argument. -/
theorem IsRead.argument (h : IsRead s a ts t r) :
    ∃ ts, Spells a.translation.toList ts ∧ grammar.sums.ReadsArgument ts t :=
  ⟨ts, h.spells, h.sum.argument⟩

/-- The texts of expressions, each with what is read of it and what it is lowered to. -/
theorem exists_items : ∀ es : List Expression, (∀ e ∈ es, ∃ ts t r, IsRead s e ts t r) →
    ∃ (items : List (List Char × Expr Float)) (rs : List (Expr Float)),
      items.map Prod.fst = (translations es).map String.toList ∧
      (∀ item ∈ items, ∃ ts, Spells item.1 ts ∧ grammar.sums.ReadsArgument ts item.2) ∧
      Dae.lowerAll s es = .ok rs ∧
      ∀ env, Expr.evalAll env (items.map Prod.snd) = Expr.evalAll env rs
  | [], _ => ⟨[], [], rfl, nofun, rfl, fun _ => rfl⟩
  | e :: rest, h => by
      obtain ⟨⟨ts, t, r, he⟩, hrest⟩ := List.forall_mem_cons.mp h
      obtain ⟨items, rs, htexts, hitems, hlowers, hvalues⟩ := exists_items rest hrest
      refine ⟨(e.translation.toList, t) :: items, r :: rs, ?_,
        List.forall_mem_cons.mpr ⟨he.argument, hitems⟩, ?_, fun env => ?_⟩
      · rw [translations, List.map_cons, List.map_cons, htexts]
      · rw [Dae.lowerAll, he.lowers, hlowers]
        rfl
      · rw [List.map_cons, Expr.evalAll, Expr.evalAll, he.value, hvalues]

/-- Arguments are read if each of them is. -/
theorem exists_areRead {es : List Expression} (h : ∀ e ∈ es, ∃ ts t r, IsRead s e ts t r) :
    ∃ ts as rs, AreRead s es ts as rs := by
  obtain ⟨items, rs, htexts, hitems, hlowers, hvalues⟩ := exists_items es h
  obtain ⟨ts, harguments⟩ := Token.Reader.exists_areArguments items hitems
  rw [htexts] at harguments
  exact ⟨ts, _, rs, harguments, hlowers, hvalues⟩

/-- A call is written with its name before the arguments. -/
theorem spells_call {operator : String} (texts : List String) {as : List (Expr Float)}
    (h : grammar.sums.AreArguments (texts.map String.toList) ts as)
    (hword : isWord (callName operator) = true) :
    Spells (renderCall operator texts).toList (.name (callName operator) :: .mark '(' :: ts) := by
  have htext : (renderCall operator texts).toList = (callName operator).toList ++
      '(' :: ([',', ' '].intercalate (texts.map String.toList) ++ [')']) := by
    simp only [renderCall, String.toList_append, String.toList_intercalate, List.append_assoc]
    rfl
  rw [htext]
  exact (Spells.name hword).marked rfl h.spells

/-- A power is read. -/
theorem IsRead.power (ha : IsRead s a ts t r) (hb : IsRead s b us u w) :
    ∃ ts t r, IsRead s (.operation id "^" [a, b]) ts t r := by
  have hitems : ∀ item ∈ [(a.translation.toList, t), (b.translation.toList, u)],
      ∃ ts, Spells item.1 ts ∧ grammar.sums.ReadsArgument ts item.2 :=
    List.forall_mem_cons.mpr ⟨ha.argument, List.forall_mem_singleton.mpr hb.argument⟩
  obtain ⟨ts, hargs⟩ := Token.Reader.exists_areArguments _ hitems
  have hspells : Spells (operation id "^" [a, b]).translation.toList _ :=
    spells_call (translations [a, b]) hargs (by decide)
  have hreads := Grammar.readsPrimary_call hargs.reads (callName "^")
  refine ⟨_, .pow t u, .pow r w, .of_signed hspells hreads.operand ?_ ?_⟩
  · rw [Dae.lower, Dae.lowerAll, Dae.lowerAll, Dae.lowerAll, ha.lowers, hb.lowers]
    rfl
  · intro env
    rw [Expr.eval, Expr.eval, ha.value, hb.value]

/-- A call is read. -/
theorem AreRead.call {function : String} {es : List Expression} {as rs : List (Expr Float)}
    (hword : isWord function = true) (hder : function ≠ "der")
    (hname : function ∉ callTable.map Prod.snd) (h : AreRead s es ts as rs) :
    ∃ ts t r, IsRead s (.operation id function es) ts t r := by
  have hcall : grammar.call (callName function) as = .call function as :=
    callOf_callName hword hname as
  have hreads := Grammar.readsPrimary_call h.arguments.reads (callName function)
  rw [hcall] at hreads
  refine ⟨_, _, .call function rs, .of_signed ?_ hreads.operand ?_ ?_⟩
  · rw [translation, renderOperation_of_isWord hword hder]
    exact spells_call _ h.arguments (isWord_callName hword)
  · rw [Dae.lower, h.lowers]
    exact lowerOperation_of_isWord hword hder s rs
  · intro env
    rw [Expr.eval, Expr.eval, h.values]

end cases

/-- **The text of a grouped expression is read as an expression of the same value** as the lowered
one. -/
theorem Grouped.exists_isRead {s : Dae.Scope} {e : Expression} (h : e.Grouped s.names) :
    ∃ ts t r, IsRead s e ts t r := by
  -- the grouping asks of every operand just the level at which the reader takes it
  induction h with
  | number id h => exact exists_isRead_number h
  | reference id hword h => exact ⟨_, _, _, isRead_reference hword h⟩
  | sign id h _ hsum hproduct iha =>
      obtain ⟨ts, t, r, ha⟩ := iha
      exact ha.sign h hsum hproduct
  | sum id h _ _ hright iha ihb =>
      obtain ⟨ts, t, r, ha⟩ := iha
      obtain ⟨us, u, w, hb⟩ := ihb
      rcases h with rfl | rfl
      · exact ⟨_, _, _, .term between_add rfl ha hb hright (.inl rfl)⟩
      · exact ⟨_, _, _, .term between_sub rfl ha hb hright (.inr rfl)⟩
  | product id h _ _ hleft hright hproduct iha ihb =>
      obtain ⟨ts, t, r, ha⟩ := iha
      obtain ⟨us, u, w, hb⟩ := ihb
      rcases h with rfl | rfl
      · exact ⟨_, _, _, .factor between_mul rfl ha hb hleft hright hproduct (.inl rfl)⟩
      · exact ⟨_, _, _, .factor between_div rfl ha hb hleft hright hproduct (.inr rfl)⟩
  | power id _ _ iha ihb =>
      obtain ⟨ts, t, r, ha⟩ := iha
      obtain ⟨us, u, w, hb⟩ := ihb
      exact ha.power hb
  | call id hword hder hname _ ihargs =>
      obtain ⟨ts, as, rs, hargs⟩ := exists_areRead ihargs
      exact hargs.call hword hder hname

end Expression

/-! ## Equations -/

/-- **The text of a grouped equation is its residual.** Read with the precedences of the source, it
gives an expression that has in every environment the value of the residual that the model has for
the equation. -/
theorem Equation.read_translation {c : ClassDef} {e : Equation}
    (hleft : e.left.Grouped c.symbols.keys) (hright : e.right.Grouped c.symbols.keys) :
    ∃ t r : Expr Float, Fragment.read? e.translation = some t ∧
      Dae.lowerEquation (.ofClass c) e = .ok r ∧ ∀ env, t.eval env = r.eval env := by
  obtain ⟨ts, t, r, hl⟩ := hleft.exists_isRead (s := .ofClass c)
  obtain ⟨us, u, w, hr⟩ := hright.exists_isRead (s := .ofClass c)
  have htext : e.translation.toList = e.left.translation.toList ++
      ' ' :: '-' :: ' ' :: '(' :: (e.right.translation.toList ++ [')']) := by
    simp only [translation, renderEquation, String.toList_append, List.append_assoc]
    rfl
  have hspells : Spells e.translation.toList
      (ts ++ .mark '-' :: (.mark '(' :: (us ++ [.mark ')']))) := by
    have hgroup : Spells ('(' :: (e.right.translation.toList ++ [')']))
        (.mark '(' :: (us ++ [.mark ')'])) := (hr.spells.closed rfl).mark rfl
    rw [htext]
    exact hl.spells.spaced (hgroup.blank.mark rfl)
  have hread := (hl.sum.join (t := .mark '-') rfl hr.sum.group.operand.row.operand).read? hspells
  refine ⟨.sub t u, .sub r w, hread, ?_, ?_⟩
  · rw [Dae.lowerEquation, hl.lowers, hr.lowers]
    rfl
  · intro env
    rw [Expr.eval, Expr.eval, hl.value, hr.value]

/-- A class with three names, one of them dotted. -/
def mixer : ClassDef where
  name := "Mixer"
  symbols := .ofList [("flow", { name := "flow", order := 0 }),
    ("tank.level", { name := "tank.level", order := 1 }), ("gain", { name := "gain", order := 2 })]

/-- The equation `-flow * -2.5 + max(tank.level, 3) ^ 2 = gain / sin(flow) - -0.0`. -/
def mixing : Equation where
  left := .apply "+" [.apply "*" [.apply "-" [.ref "flow"], .ofLiteral (.real (-2.5))],
    .apply "^" [.apply "max" [.ref "tank.level", .ofLiteral (.integer 3)], .ofLiteral (.integer 2)]]
  right := .apply "-" [.apply "/" [.ref "gain", .apply "sin" [.ref "flow"]],
    .ofLiteral (.real (-0.0))]

example : mixing.translation =
    "- flow * -2.5 + sympy.Pow(sympy.Max(tank__level, 3), 2) - (gain / sin(flow) - -0.0)" := by
  decide +kernel

/-- The text of the equation has the value of its residual. -/
theorem Equation.read_translation_mixing :
    ∃ t r : Expr Float, Fragment.read? mixing.translation = some t ∧
      Dae.lowerEquation (.ofClass mixer) mixing = .ok r ∧ ∀ env, t.eval env = r.eval env := by
  have hflow : (Expression.ref "flow").Grouped mixer.symbols.keys :=
    .reference 0 (by decide) (by decide)
  have hlevel : (Expression.ref "tank.level").Grouped mixer.symbols.keys :=
    .reference 0 (by decide) (by decide)
  have hgain : (Expression.ref "gain").Grouped mixer.symbols.keys :=
    .reference 0 (by decide) (by decide)
  have hratio : (Literal.real (-2.5)).IsNumber := (by decide +kernel : Float.isFinite (-2.5) = true)
  have hzero : (Literal.real (-0.0)).IsNumber := (by decide +kernel : Float.isFinite (-0.0) = true)
  apply read_translation
  · apply Expression.Grouped.sum 0 (.inl rfl)
    · apply Expression.Grouped.product 0 (.inl rfl)
      · exact .sign 0 (.inr rfl) hflow nofun nofun
      · exact .number 0 hratio
      all_goals exact nofun
    · apply Expression.Grouped.power 0
      · apply Expression.Grouped.call 0 (by decide) (by decide) (by decide)
        simp only [List.forall_mem_cons]
        exact ⟨hlevel, .number 0 trivial, nofun⟩
      · exact .number 0 trivial
    · simp [Expression.IsSum, Expression.apply]
  · apply Expression.Grouped.sum 0 (.inr rfl)
    · apply Expression.Grouped.product 0 (.inr rfl) hgain
      · apply Expression.Grouped.call 0 (by decide) (by decide) (by decide)
        simp only [List.forall_mem_cons]
        exact ⟨hflow, nofun⟩
      all_goals exact nofun
    · exact .number 0 hzero
    · exact nofun

end FlatModel
