import Mathlib.Data.Nat.Init
import FlatModel.Symbolic.Evaluation
import FlatModel.Proofs.TokenReader

/-!
# Reading expressions with operators

Expressions are read by the rules

* sum: products with `+` or `-` between them,
* product: signed operands with `*` or `/` between them,
* signed operand: a sign and a signed operand, or a power,
* power: a primary, and `**` and a signed operand if there is one,
* primary: a number, a name, a name and arguments, or a sum in parentheses.

Which signs and powers there are, and what a name with arguments stands for, depends on the grammar.
Sums and products are rows of operands that group to the left.  They are read by the same functions,
with the kind of the row as a parameter.

* `Grammar` — what differs from one grammar to another.
* `Grammar.readRow`, `readMore`, `readOperand`, `readSigned`, `readPower`, `readPrimary` — one reader
  for each rule; what it leaves is shorter than what it was given.
* `Grammar.sums` — the reader of sums, which are what stands in arguments and in whole texts.
* `Grammar.ReadsPrimary`, `ReadsOperand`, `ReadsRow` — tokens that are read by a rule, whatever follows
  them; `ReadsPrimary.power`, `ReadsOperand.sign`, `ReadsRow.join`, `ReadsRow.group`,
  `readsPrimary_call` — how they are put together.
-/

namespace FlatModel.Fragment

open Symbolic

/-! ## Operators -/

/-- The operator of a sum or a difference. -/
def additive? : Token → Option (Expr Float → Expr Float → Expr Float)
  | .mark '+' => some .add
  | .mark '-' => some .sub
  | _ => none

/-- The operator of a product or a quotient. -/
def multiplicative? : Token → Option (Expr Float → Expr Float → Expr Float)
  | .mark '*' => some .mul
  | .mark '/' => some .div
  | _ => none

/-- Operands with operators between them. -/
inductive Row where
  /-- Terms that are added or taken away. -/
  | sum
  /-- Factors that multiply or divide. -/
  | product
  deriving DecidableEq

/-- The operator between two operands of a row. -/
def Row.operator? : Row → Token → Option (Expr Float → Expr Float → Expr Float)
  | .sum => additive?
  | .product => multiplicative?

/-- A row is read after all readers of smaller rank. -/
@[simp] def Row.rank : Row → Nat
  | .sum => 5
  | .product => 3

/-- What follows an operand of the row and is no part of it: no arguments begin, there is no power, and
behind a product there is no factor. -/
structure Row.Ends (l : Row) (rest : List Token) : Prop where
  /-- No arguments begin. -/
  call : rest.head? ≠ some (.mark '(')
  /-- There is no power. -/
  power : ¬ [.mark '*', .mark '*'] <+: rest
  /-- There is no factor, if the operand is a product. -/
  factor : l = .sum → ∀ t ∈ rest.head?, multiplicative? t = none

namespace Row

variable {l : Row} {rest : List Token}

/-- Where a sum ends or goes on, a product ends. -/
theorem Ends.product (h : Row.sum.Ends rest) : Row.product.Ends rest :=
  ⟨h.call, h.power, nofun⟩

/-- Every row ends with the tokens. -/
theorem ends_nil : l.Ends [] where
  call := nofun
  power h := nomatch List.prefix_nil.mp h
  factor _ _ := nofun

/-- Every row ends at a mark between or behind arguments. -/
theorem ends_mark {c : Char} (hc : c = ')' ∨ c = ',') : l.Ends (.mark c :: rest) where
  call := by
    rcases hc with rfl | rfl <;> simp
  power h := by
    have hstar := (List.cons_prefix_cons.mp h).1
    rcases hc with rfl | rfl <;> simp at hstar
  factor _ := by
    rcases hc with rfl | rfl <;> simp [multiplicative?]

end Row

/-- What the rules leave open. -/
structure Grammar where
  /-- Whether there is a sign `+`, which changes nothing.  There always is a sign `-`. -/
  plus : Bool
  /-- Whether a primary may be raised by `**`. -/
  powers : Bool
  /-- What a name with arguments stands for. -/
  call : String → List (Expr Float) → Expr Float

namespace Grammar

variable (g : Grammar)

/-- What a sign does to its operand. -/
def sign? : Token → Option (Expr Float → Expr Float)
  | .mark '+' => if g.plus then some id else none
  | .mark '-' => some .neg
  | _ => none

/-! ## Readers -/

mutual

/-- An operand with the operands of the row behind it. -/
def readRow (l : Row) (ts : List Token) : Option (Parsed (Expr Float) ts.length) :=
  match readOperand l ts with
  | none => none
  | some ⟨(a, rest), h⟩ =>
      match readMore l a rest with
      | none => none
      | some ⟨p, h'⟩ => some ⟨p, Nat.lt_of_le_of_lt (Nat.le_of_lt_succ h') h⟩
termination_by (ts.length, l.rank + 1)

/-- The operands of a row behind a first one. -/
def readMore (l : Row) (a : Expr Float) (ts : List Token) :
    Option (Parsed (Expr Float) (ts.length + 1)) :=
  match ts with
  | [] => some ⟨(a, []), Nat.lt_succ_self _⟩
  | t :: rest =>
      match l.operator? t with
      | none => some ⟨(a, t :: rest), Nat.lt_succ_self _⟩
      | some op =>
          match readOperand l rest with
          | none => none
          | some ⟨(b, rest'), h⟩ =>
              have hlt : rest'.length < rest.length := h
              match readMore l (op a b) rest' with
              | none => none
              | some ⟨p, h'⟩ => some ⟨p, by rw [List.length_cons]; omega⟩
termination_by (ts.length, 0)

/-- An operand of a sum is a product, one of a product has its sign. -/
def readOperand (l : Row) (ts : List Token) : Option (Parsed (Expr Float) ts.length) :=
  match l with
  | .sum => readRow .product ts
  | .product => readSigned ts
termination_by (ts.length, l.rank)

/-- Signs before a power. -/
def readSigned (ts : List Token) : Option (Parsed (Expr Float) ts.length) :=
  match ts with
  | [] => none
  | t :: rest =>
      match g.sign? t with
      | none => readPower (t :: rest)
      | some f =>
          match readSigned rest with
          | none => none
          | some ⟨(a, rest'), h⟩ => some ⟨(f a, rest'), Nat.lt_succ_of_lt h⟩
termination_by (ts.length, 2)

/-- A primary, raised to a signed operand if two marks for it follow. -/
def readPower (ts : List Token) : Option (Parsed (Expr Float) ts.length) :=
  match readPrimary ts with
  | none => none
  | some ⟨(a, .mark '*' :: .mark '*' :: rest), h⟩ =>
      if g.powers then
        have hlt : rest.length < ts.length := Nat.lt_of_succ_lt (Nat.lt_of_succ_lt h)
        match readSigned rest with
        | none => none
        | some ⟨(b, rest'), h'⟩ => some ⟨(.pow a b, rest'), Nat.lt_trans h' hlt⟩
      else some ⟨(a, .mark '*' :: .mark '*' :: rest), h⟩
  | some p => some p
termination_by (ts.length, 1)

/-- A number, a name, a name with arguments, or a sum in parentheses. -/
def readPrimary (ts : List Token) : Option (Parsed (Expr Float) ts.length) :=
  match ts with
  | .number n :: rest => some ⟨(.num n.toFloat, rest), Nat.lt_succ_self _⟩
  | .name name :: .mark '(' :: rest =>
      match readArguments rest fun us hus =>
          have : us.length < rest.length + 2 := Nat.lt_succ_of_le (Nat.le_succ_of_le hus)
          readRow .sum us with
      | none => none
      | some ⟨(args, rest'), h⟩ =>
          some ⟨(g.call name args, rest'), Nat.lt_succ_of_lt (Nat.lt_succ_of_lt h)⟩
  | .name name :: rest => some ⟨(.sym name, rest), Nat.lt_succ_self _⟩
  | .mark '(' :: rest =>
      match readRow .sum rest with
      | some ⟨(a, .mark ')' :: rest'), h⟩ =>
          some ⟨(a, rest'), Nat.lt_succ_of_lt (Nat.lt_of_succ_lt h)⟩
      | _ => none
  | _ => none
termination_by (ts.length, 0)

end

/-- A row at the front of a row of tokens, and what follows. -/
def row? (l : Row) (ts : List Token) : Option (Expr Float × List Token) :=
  (g.readRow l ts).map Subtype.val

/-- The operands of a row behind a first one, and what follows. -/
def more? (l : Row) (a : Expr Float) (ts : List Token) : Option (Expr Float × List Token) :=
  (g.readMore l a ts).map Subtype.val

/-- An operand of a row at the front, and what follows. -/
def operand? (l : Row) (ts : List Token) : Option (Expr Float × List Token) :=
  (g.readOperand l ts).map Subtype.val

/-- A power at the front, and what follows. -/
def power? (ts : List Token) : Option (Expr Float × List Token) :=
  (g.readPower ts).map Subtype.val

/-- A primary at the front, and what follows. -/
def primary? (ts : List Token) : Option (Expr Float × List Token) :=
  (g.readPrimary ts).map Subtype.val

/-! ## One step of each reader -/

section steps

variable {g} {l : Row} {a : Expr Float} {t : Token} {ts rest : List Token}

theorem row?_eq : g.row? l ts = (g.operand? l ts).bind fun p => g.more? l p.1 p.2 := by
  rw [row?, readRow, operand?]
  rcases g.readOperand l ts with _ | ⟨⟨a, rest⟩, h⟩
  · rfl
  · simp only [Option.map_some, Option.bind_some, more?]
    rcases g.readMore l a rest with _ | ⟨p, h'⟩ <;> rfl

theorem more?_of_operator {op : Expr Float → Expr Float → Expr Float}
    (h : l.operator? t = some op) :
    g.more? l a (t :: rest) = (g.operand? l rest).bind fun p => g.more? l (op a p.1) p.2 := by
  rw [more?, readMore, h, operand?]
  rcases g.readOperand l rest with _ | ⟨⟨b, rest'⟩, hlt⟩
  · rfl
  · simp only [Option.map_some, Option.bind_some, more?]
    rcases g.readMore l (op a b) rest' with _ | ⟨p, h'⟩ <;> rfl

/-- Where no operator of the row follows, the row ends. -/
theorem more?_end (h : ∀ t ∈ rest.head?, l.operator? t = none) :
    g.more? l a rest = some (a, rest) := by
  cases rest with
  | nil => rw [more?, readMore]; rfl
  | cons t rest => rw [more?, readMore, h t rfl]; rfl

theorem operand?_sum : g.operand? .sum ts = g.row? .product ts := by
  rw [operand?, readOperand]
  rfl

theorem operand?_sign {f : Expr Float → Expr Float} (h : g.sign? t = some f) :
    g.operand? .product (t :: ts) = (g.operand? .product ts).map fun p => (f p.1, p.2) := by
  rw [operand?, readOperand, readSigned, h, operand?, readOperand]
  rcases g.readSigned ts with _ | ⟨⟨a, rest⟩, hlt⟩ <;> rfl

/-- What begins with no sign is a power. -/
theorem operand?_eq_power? (h : g.sign? t = none) :
    g.operand? .product (t :: ts) = g.power? (t :: ts) := by
  rw [operand?, readOperand, readSigned, h]
  rfl

/-- No power begins with a mark other than a parenthesis. -/
theorem power?_mark {c : Char} (h : c ≠ '(') : g.power? (.mark c :: rest) = none := by
  have hprimary : g.readPrimary (.mark c :: rest) = none := by
    rw [readPrimary]
    · rintro n rest' ⟨⟩
    · rintro name rest' ⟨⟩
    · rintro name rest' ⟨⟩
    · rintro rest' ⟨⟩
      exact h rfl
  rw [power?, readPower, hprimary]
  rfl

/-- A sign is a mark other than a parenthesis. -/
theorem exists_mark_of_sign {f : Expr Float → Expr Float} (h : g.sign? t = some f) :
    ∃ c, t = .mark c ∧ c ≠ '(' := by
  unfold sign? at h
  split at h
  · exact ⟨_, rfl, by decide⟩
  · exact ⟨_, rfl, by decide⟩
  · cases h

/-- A power is a signed operand. -/
theorem operand?_of_power? {p : Expr Float × List Token} (h : g.power? ts = some p) :
    g.operand? .product ts = some p := by
  cases ts with
  | nil =>
      have hprimary : g.readPrimary [] = none := by
        rw [readPrimary] <;> nofun
      rw [power?, readPower, hprimary] at h
      cases h
  | cons t ts =>
      rcases hsign : g.sign? t with _ | f
      · rw [operand?_eq_power? hsign, h]
      · obtain ⟨c, rfl, hc⟩ := exists_mark_of_sign hsign
        rw [power?_mark hc] at h
        cases h

/-- No signed operand begins with the mark of a product. -/
theorem operand?_times : g.operand? .product (.mark '*' :: rest) = none := by
  rw [operand?_eq_power? rfl, power?_mark (by decide)]

/-- Where two marks for it follow, a primary is raised. -/
theorem power?_raised (hpowers : g.powers = true)
    (h : g.primary? ts = some (a, .mark '*' :: .mark '*' :: rest)) :
    g.power? ts = (g.operand? .product rest).map fun p => (.pow a p.1, p.2) := by
  obtain ⟨⟨p, hlt⟩, hread, rfl⟩ := Option.map_eq_some_iff.mp h
  rw [power?, readPower, hread, operand?, readOperand]
  simp only [hpowers, if_true]
  rcases g.readSigned rest with _ | ⟨⟨b, rest'⟩, h'⟩ <;> rfl

/-- Where they do not follow, it is not. -/
theorem power?_plain (h : g.primary? ts = some (a, rest))
    (hrest : ¬ [.mark '*', .mark '*'] <+: rest) : g.power? ts = some (a, rest) := by
  obtain ⟨⟨p, hlt⟩, hread, rfl⟩ := Option.map_eq_some_iff.mp h
  rw [power?, readPower, hread]
  split
  · rename_i hnone
    cases hnone
  · rename_i heq
    cases heq
    exact absurd ⟨_, rfl⟩ hrest
  · rename_i heq
    rw [← heq]
    rfl

/-- A number is read. -/
theorem primary?_number (n : Decimal.Numeral) :
    g.primary? (.number n :: rest) = some (.num n.toFloat, rest) := by
  rw [primary?, readPrimary]
  rfl

/-- A name without arguments is a symbol. -/
theorem primary?_name (name : String) (h : rest.head? ≠ some (.mark '(')) :
    g.primary? (.name name :: rest) = some (.sym name, rest) := by
  rw [primary?, readPrimary]
  · rfl
  · rintro rest' rfl
    exact h rfl

/-- What is in parentheses is read on its own. -/
theorem primary?_group {rest' : List Token}
    (h : g.row? .sum rest = some (a, .mark ')' :: rest')) :
    g.primary? (.mark '(' :: rest) = some (a, rest') := by
  obtain ⟨⟨p, hlt⟩, hread, rfl⟩ := Option.map_eq_some_iff.mp h
  rw [primary?, readPrimary, hread]
  rfl

/-- No sum begins with a closing parenthesis. -/
theorem readRow_close (rest : List Token) : g.readRow .sum (.mark ')' :: rest) = none := by
  have hoperand : g.operand? .product (.mark ')' :: rest) = none := by
    rw [operand?_eq_power? rfl, power?_mark (by decide)]
  have hrow : g.row? .sum (.mark ')' :: rest) = none := by
    rw [row?_eq, operand?_sum, row?_eq, hoperand]
    rfl
  exact Option.map_eq_none_iff.mp hrow

end steps

/-! ## Sums -/

/-- The reader of sums. -/
def sums : Token.Reader (Expr Float) where
  read := g.readRow .sum
  read_close := readRow_close

/-- A name with arguments is a call. -/
theorem primary?_call (name : String) (rest : List Token) :
    g.primary? (.name name :: .mark '(' :: rest) =
      (g.sums.arguments? rest).map fun p => (g.call name p.1, p.2) := by
  rw [primary?, readPrimary, Token.Reader.arguments?]
  dsimp only [sums]
  rcases readArguments rest fun us _ => g.readRow .sum us with _ | ⟨⟨args, rest'⟩, hlt⟩ <;> rfl

/-! ## Tokens that are read, whatever follows them

What follows must not go on with what was read. -/

/-- The tokens are read as a primary. -/
def ReadsPrimary (ts : List Token) (a : Expr Float) : Prop :=
  ∀ rest, rest.head? ≠ some (.mark '(') → g.primary? (ts ++ rest) = some (a, rest)

/-- The tokens are read as an operand of the row. -/
def ReadsOperand (l : Row) (ts : List Token) (a : Expr Float) : Prop :=
  ∀ rest, l.Ends rest → g.operand? l (ts ++ rest) = some (a, rest)

/-- The tokens are read as the front of the row.  Where more operands follow, the reader does not
stop: it goes on with them. -/
def ReadsRow (l : Row) (ts : List Token) (a : Expr Float) : Prop :=
  ∀ rest, l.Ends rest → g.row? l (ts ++ rest) = g.more? l a rest

section levels

variable {g} {l : Row} {ts us rest : List Token} {a b : Expr Float} {t : Token}

/-- An operand of a row ends at an operator with another operand behind it. -/
theorem ReadsOperand.ends_operator {op : Expr Float → Expr Float → Expr Float}
    (h : g.ReadsOperand l us b) (ht : l.operator? t = some op) (hrest : l.Ends rest) :
    l.Ends (t :: (us ++ rest)) where
  call := by
    rintro ⟨⟩
    cases l <;> cases ht
  power hpower := by
    -- a second mark would begin the operand, and no operand begins with it
    obtain ⟨rfl, us', hus⟩ := List.cons_prefix_cons.mp hpower
    cases l with
    | sum => cases ht
    | product =>
        have hread := h rest hrest
        rw [← hus, List.cons_append, operand?_times] at hread
        cases hread
  factor hl := by
    subst hl
    rintro t' ⟨⟩
    replace ht : additive? t = some op := ht
    unfold additive? at ht
    split at ht
    · rfl
    · rfl
    · cases ht

/-- A primary is an operand of a product. -/
theorem ReadsPrimary.operand (h : g.ReadsPrimary ts a) : g.ReadsOperand .product ts a :=
  fun rest hrest => operand?_of_power? (power?_plain (h rest hrest.call) hrest.power)

/-- A primary raised to an operand of a product is one itself. -/
theorem ReadsPrimary.power (hpowers : g.powers = true) (ha : g.ReadsPrimary ts a)
    (hb : g.ReadsOperand .product us b) :
    g.ReadsOperand .product (ts ++ .mark '*' :: .mark '*' :: us) (.pow a b) := by
  intro rest hrest
  have hbase := ha (.mark '*' :: .mark '*' :: (us ++ rest)) (by simp)
  rw [List.append_assoc]
  apply operand?_of_power?
  rw [List.cons_append, List.cons_append, power?_raised hpowers hbase, hb rest hrest,
    Option.map_some]

/-- A sign before an operand of a product. -/
theorem ReadsOperand.sign {f : Expr Float → Expr Float} (ht : g.sign? t = some f)
    (h : g.ReadsOperand .product ts a) : g.ReadsOperand .product (t :: ts) (f a) := by
  intro rest hrest
  rw [List.cons_append, operand?_sign ht, h rest hrest, Option.map_some]

/-- A single operand is a row. -/
theorem ReadsOperand.row (h : g.ReadsOperand l ts a) : g.ReadsRow l ts a := by
  intro rest hrest
  rw [row?_eq, h rest hrest, Option.bind_some]

/-- A product is an operand of a sum. -/
theorem ReadsRow.operand (h : g.ReadsRow .product ts a) : g.ReadsOperand .sum ts a := by
  intro rest hrest
  rw [operand?_sum, h rest hrest.product, more?_end (hrest.factor rfl)]

/-- **A row grows to the right** by an operand. -/
theorem ReadsRow.join {op : Expr Float → Expr Float → Expr Float} (ht : l.operator? t = some op)
    (ha : g.ReadsRow l ts a) (hb : g.ReadsOperand l us b) :
    g.ReadsRow l (ts ++ t :: us) (op a b) := by
  intro rest hrest
  rw [List.append_assoc, List.cons_append, ha _ (hb.ends_operator ht hrest), more?_of_operator ht,
    hb rest hrest, Option.bind_some]

/-- A number is a primary. -/
theorem readsPrimary_number (n : Decimal.Numeral) : g.ReadsPrimary [.number n] (.num n.toFloat) :=
  fun _ _ => primary?_number n

/-- A name is a primary. -/
theorem readsPrimary_name (name : String) : g.ReadsPrimary [.name name] (.sym name) :=
  fun _ hrest => primary?_name name hrest

/-- A sum is an argument. -/
theorem ReadsRow.argument (h : g.ReadsRow .sum ts a) : g.sums.ReadsArgument ts a := by
  intro c hc rest
  have hadditive : additive? (.mark c) = none := by
    rcases hc with rfl | rfl <;> rfl
  show g.row? .sum _ = _
  rw [h _ (Row.ends_mark hc), more?_end (by rintro t' ⟨⟩; exact hadditive)]

/-- A sum in parentheses is a primary. -/
theorem ReadsRow.group (h : g.ReadsRow .sum ts a) :
    g.ReadsPrimary (.mark '(' :: (ts ++ [.mark ')'])) a := by
  intro rest _
  rw [List.cons_append, List.append_assoc]
  exact primary?_group (h.argument ')' (.inl rfl) rest)

/-- A name with arguments is a primary. -/
theorem readsPrimary_call {args : List (Expr Float)} (h : g.sums.ReadsArguments ts args)
    (name : String) : g.ReadsPrimary (.name name :: .mark '(' :: ts) (g.call name args) := by
  intro rest _
  rw [List.cons_append, List.cons_append, primary?_call, h rest]
  rfl

/-- A text of the tokens of a sum is read. -/
theorem ReadsRow.read? (h : g.ReadsRow .sum ts a) {text : String} (htext : Spells text.toList ts) :
    g.sums.read? text = some a := by
  have hall := h [] Row.ends_nil
  rw [List.append_nil, more?_end (by simp)] at hall
  exact Token.Reader.read?_eq_some hall htext

end levels

end Grammar

end FlatModel.Fragment
