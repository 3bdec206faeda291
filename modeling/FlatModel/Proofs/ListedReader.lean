import FlatModel.Tree.Listing
import FlatModel.Proofs.TokenReader

/-!
# Reading listed expressions

An expression read back from a listing, where parentheses stand around every operand that is written
with an operator itself.  So no operator binds tighter than another one:

* expression: an operand, or an operator between two operands,
* operand: a number, a name, a name or operator with arguments in parentheses, a sign and an operand, or
  an expression in parentheses.

A name or operator before a parenthesis is always called: `+(a + b)` is the sum with a sign.

* `Reader.readExpression`, `readOperand` — one reader for each rule; what it leaves is shorter than what
  it was given.
* `Reader.expressions`, `Reader.read?` — the reader of arguments and of a whole text.
* `Reader.ReadsOperand`, `ReadsExpression` — tokens that are read by a rule, whatever follows them;
  `ReadsOperand.between`, `ReadsOperand.sign`, `ReadsExpression.group`, `readsOperand_call` — how they
  are put together.
-/

namespace FlatModel.Listing.Reader

open Decimal
open Fragment (Parsed Token Spells readArguments)

/-- The literal of a numeral: an integer if the numeral is a whole number. -/
def literalOf (n : Numeral) : Literal :=
  match n.toInt? with
  | some i => .integer (Int64.ofInt i)
  | none => .real n.toFloat

/-- The operator that is written as a mark. -/
def operator? : Token → Option String
  | .mark c =>
      if infixOperators.contains (String.singleton c) then some (String.singleton c) else none
  | _ => none

/-- What may be called: a name or an operator. -/
def function? : Token → Option String
  | .name f => some f
  | t => operator? t

/-! ## Readers -/

mutual

/-- An operand, with an operator and another one if an operator follows. -/
def readExpression (ts : List Token) : Option (Parsed Expression ts.length) :=
  match readOperand ts with
  | none => none
  | some ⟨(a, []), h⟩ => some ⟨(a, []), h⟩
  | some ⟨(a, t :: rest), h⟩ =>
      match operator? t with
      | none => some ⟨(a, t :: rest), h⟩
      | some operator =>
          have hlt : rest.length < ts.length := Nat.lt_of_succ_lt h
          match readOperand rest with
          | none => none
          | some ⟨(b, rest'), h'⟩ =>
              some ⟨(.apply operator [a, b], rest'), Nat.lt_trans h' hlt⟩
termination_by (ts.length, 1)

/-- A number, a name, a call, a sign with its operand, or an expression in parentheses. -/
def readOperand (ts : List Token) : Option (Parsed Expression ts.length) :=
  match ts with
  | [] => none
  | .number n :: rest => some ⟨(.ofLiteral (literalOf n), rest), Nat.lt_succ_self _⟩
  | .mark '(' :: rest =>
      match readExpression rest with
      | some ⟨(a, .mark ')' :: rest'), h⟩ =>
          some ⟨(a, rest'), Nat.lt_succ_of_lt (Nat.lt_of_succ_lt h)⟩
      | _ => none
  | t :: .mark '(' :: rest =>
      match function? t with
      | none => none
      | some f =>
          match readArguments rest fun us hus =>
              have : us.length < rest.length + 2 := Nat.lt_succ_of_le (Nat.le_succ_of_le hus)
              readExpression us with
          | none => none
          | some ⟨(args, rest'), h⟩ =>
              some ⟨(.apply f args, rest'), Nat.lt_succ_of_lt (Nat.lt_succ_of_lt h)⟩
  | .name x :: rest => some ⟨(.ref x, rest), Nat.lt_succ_self _⟩
  | t :: rest =>
      match operator? t with
      | none => none
      | some operator =>
          match readOperand rest with
          | none => none
          | some ⟨(a, rest'), h⟩ => some ⟨(.apply operator [a], rest'), Nat.lt_succ_of_lt h⟩
termination_by (ts.length, 0)

end

/-- An expression at the front of a row of tokens, and what follows. -/
def expression? (ts : List Token) : Option (Expression × List Token) :=
  (readExpression ts).map Subtype.val

/-- An operand at the front, and what follows. -/
def operand? (ts : List Token) : Option (Expression × List Token) :=
  (readOperand ts).map Subtype.val

/-! ## One step of each reader -/

section steps

variable {a : Expression} {t : Token} {f operator : String} {ts rest : List Token}

/-- Where no operator follows, an operand is an expression. -/
theorem expression?_of_operand (h : operand? ts = some (a, rest))
    (hend : ∀ t ∈ rest.head?, operator? t = none) : expression? ts = some (a, rest) := by
  obtain ⟨⟨p, hlt⟩, hread, rfl⟩ := Option.map_eq_some_iff.mp h
  rw [expression?, readExpression, hread]
  cases rest with
  | nil => rfl
  | cons t rest =>
      dsimp only
      rw [hend t rfl]
      rfl

/-- Where an operator follows, it takes the next operand. -/
theorem expression?_of_operator (h : operand? ts = some (a, t :: rest))
    (ht : operator? t = some operator) :
    expression? ts = (operand? rest).map fun p => (.apply operator [a, p.1], p.2) := by
  obtain ⟨⟨p, hlt⟩, hread, rfl⟩ := Option.map_eq_some_iff.mp h
  rw [expression?, readExpression, hread]
  dsimp only
  rw [ht, operand?]
  rcases readOperand rest with _ | ⟨⟨b, rest'⟩, h'⟩ <;> rfl

/-- A number is a literal. -/
theorem operand?_number (n : Numeral) :
    operand? (.number n :: rest) = some (.ofLiteral (literalOf n), rest) := by
  rw [operand?, readOperand]
  rfl

/-- A name without arguments is a reference. -/
theorem operand?_name (name : String) (h : rest.head? ≠ some (.mark '(')) :
    operand? (.name name :: rest) = some (.ref name, rest) := by
  rw [operand?, readOperand]
  · rfl
  · rintro rest' rfl
    exact h rfl

/-- What is in parentheses is read on its own. -/
theorem operand?_group {rest' : List Token}
    (h : expression? rest = some (a, .mark ')' :: rest')) :
    operand? (.mark '(' :: rest) = some (a, rest') := by
  obtain ⟨⟨p, hlt⟩, hread, rfl⟩ := Option.map_eq_some_iff.mp h
  rw [operand?, readOperand, hread]
  rfl

/-- An operator without arguments takes one operand. -/
theorem operand?_sign (ht : operator? t = some operator) (h : rest.head? ≠ some (.mark '(')) :
    operand? (t :: rest) = (operand? rest).map fun p => (.apply operator [p.1], p.2) := by
  rw [operand?, readOperand, ht, operand?]
  · dsimp only
    rcases readOperand rest with _ | ⟨⟨a, rest'⟩, hlt⟩ <;> rfl
  · rintro n rfl
    cases ht
  · rintro rfl
    cases ht
  · rintro rest' rfl
    exact h rfl
  · rintro x rfl
    cases ht

/-- No expression begins with a closing parenthesis. -/
theorem readExpression_close (rest : List Token) : readExpression (.mark ')' :: rest) = none := by
  have hoperand : readOperand (.mark ')' :: rest) = none := by
    by_cases hopen : ∃ rest', rest = .mark '(' :: rest'
    · obtain ⟨rest', rfl⟩ := hopen
      rw [readOperand]
      · rfl
      · nofun
      · nofun
    · rw [readOperand]
      · rfl
      · nofun
      · nofun
      · exact fun rest' h => hopen ⟨rest', h⟩
      · nofun
  rw [readExpression, hoperand]

end steps

/-! ## Expressions -/

/-- The reader of expressions. -/
def expressions : Token.Reader Expression where
  read := readExpression
  read_close := readExpression_close

/-- The expression of a text, if nothing is left of it. -/
def read? (text : String) : Option Expression := expressions.read? text

/-- A name or operator with arguments is applied to them. -/
theorem operand?_call {t : Token} {f : String} (h : function? t = some f) (rest : List Token) :
    operand? (t :: .mark '(' :: rest) =
      (expressions.arguments? rest).map fun p => (.apply f p.1, p.2) := by
  rw [operand?, readOperand, h, Token.Reader.arguments?]
  · dsimp only [expressions]
    rcases readArguments rest fun us _ => readExpression us with _ | ⟨⟨args, rest'⟩, hlt⟩ <;> rfl
  · rintro n rfl
    cases h
  · rintro rfl
    cases h

/-! ## Tokens that are read, whatever follows them

What follows must not go on with what was read: no arguments behind an operand, and nothing but the end,
a comma or a parenthesis behind an expression. -/

/-- What may follow an expression. -/
def Ends (rest : List Token) : Prop := ∀ t ∈ rest.head?, t = .mark ')' ∨ t = .mark ','

/-- The tokens begin, and not with an opening parenthesis. -/
def Bare (ts : List Token) : Prop := ∃ t rest, ts = t :: rest ∧ t ≠ .mark '('

/-- The tokens are read as an operand. -/
def ReadsOperand (ts : List Token) (a : Expression) : Prop :=
  ∀ rest, rest.head? ≠ some (.mark '(') → operand? (ts ++ rest) = some (a, rest)

/-- The tokens are read as an expression. -/
def ReadsExpression (ts : List Token) (a : Expression) : Prop :=
  ∀ rest, Ends rest → expression? (ts ++ rest) = some (a, rest)

section rules

variable {ts us rest : List Token} {a b : Expression} {t : Token} {f operator : String}
  {args : List Expression}

/-- No arguments begin where an expression ends. -/
theorem Ends.head?_ne (h : Ends rest) : rest.head? ≠ some (.mark '(') := by
  intro hopen
  rcases h _ hopen with hmark | hmark <;> cases hmark

/-- No operator follows where an expression ends. -/
theorem Ends.operator?_eq (h : Ends rest) : ∀ t ∈ rest.head?, operator? t = none := by
  intro t ht
  rcases h t ht with rfl | rfl <;> decide

/-- A number is an operand. -/
theorem readsOperand_number (n : Numeral) : ReadsOperand [.number n] (.ofLiteral (literalOf n)) :=
  fun _ _ => operand?_number n

/-- A name is an operand. -/
theorem readsOperand_name (name : String) : ReadsOperand [.name name] (.ref name) :=
  fun _ hrest => operand?_name name hrest

/-- An operand is an expression. -/
theorem ReadsOperand.expression (h : ReadsOperand ts a) : ReadsExpression ts a :=
  fun rest hrest => expression?_of_operand (h rest hrest.head?_ne) hrest.operator?_eq

/-- An operator between two operands. -/
theorem ReadsOperand.between (ht : operator? t = some operator) (ha : ReadsOperand ts a)
    (hb : ReadsOperand us b) : ReadsExpression (ts ++ t :: us) (.apply operator [a, b]) := by
  intro rest hrest
  have hne : (t :: (us ++ rest)).head? ≠ some (.mark '(') := by
    rintro ⟨⟩
    cases ht
  rw [List.append_assoc, List.cons_append, expression?_of_operator (ha _ hne) ht,
    hb rest hrest.head?_ne]
  rfl

/-- A sign before an operand that does not begin with a parenthesis. -/
theorem ReadsOperand.sign (ht : operator? t = some operator) (ha : ReadsOperand ts a)
    (hbare : Bare ts) : ReadsOperand (t :: ts) (.apply operator [a]) := by
  intro rest hrest
  obtain ⟨first, more, rfl, hfirst⟩ := hbare
  rw [List.cons_append, operand?_sign ht, ha rest hrest]
  · rfl
  · rintro ⟨⟩
    exact hfirst rfl

/-- An expression is an argument. -/
theorem ReadsExpression.argument (h : ReadsExpression ts a) : expressions.ReadsArgument ts a := by
  intro c hc rest
  refine h (.mark c :: rest) ?_
  rintro t ⟨⟩
  exact hc.imp (congrArg Token.mark) (congrArg Token.mark)

/-- An expression in parentheses is an operand. -/
theorem ReadsExpression.group (h : ReadsExpression ts a) :
    ReadsOperand (.mark '(' :: (ts ++ [.mark ')'])) a := by
  intro rest _
  rw [List.cons_append, List.append_assoc]
  exact operand?_group (h.argument ')' (.inl rfl) rest)

/-- A name or operator with arguments is an operand. -/
theorem readsOperand_call (h : expressions.ReadsArguments ts args) (ht : function? t = some f) :
    ReadsOperand (t :: .mark '(' :: ts) (.apply f args) := by
  intro rest _
  rw [List.cons_append, List.cons_append, operand?_call ht, h rest]
  rfl

/-- A text of the tokens of an expression is read. -/
theorem ReadsExpression.read? (h : ReadsExpression ts a) {text : String}
    (htext : Spells text.toList ts) : Reader.read? text = some a := by
  have hall := h [] (by rintro t ⟨⟩)
  rw [List.append_nil] at hall
  exact Token.Reader.read?_eq_some hall htext

end rules

end FlatModel.Listing.Reader
