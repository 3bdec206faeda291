import FlatModel.Proofs.ListedReader
import FlatModel.Proofs.ListedTexts
import FlatModel.Proofs.ResidualLaw

/-!
# Listed expressions are unambiguous

The text of an expression in the listing of a unit is read back as the expression without its numbers.

* `Literal.IsUnsigned`, `Expression.IsLegible` — numbers without a minus sign, names that are words, and
  operations with an operator or a word.
* `operationText_between`, `operationText_sign`, `operationText_call` — the three layouts of an
  operation.
* `Reader.IsRead` — how an expression is read; `IsRead.enclosed` — every operand is read as such, in
  parentheses or without; `exists_isRead` — the induction over legible expressions.
* `Expression.read?_listed` — reading is the inverse of writing.
* `SourceUnit.listing_determines` — the listing of a numbered unit, in which expressions with the same
  text are the same.
-/

namespace FlatModel

open Decimal Listing
open Fragment (Token Spells isWord isMark)

/-! ## Legible expressions -/

/-- A finite number that is written without a minus sign. -/
def Literal.IsUnsigned (value : Literal) : Prop :=
  value.IsNumber ∧ value.text.toList.head? ≠ some '-'

mutual

/-- An expression of numbers without a minus sign and words, the operators of which are written before
or between operands or are words. -/
def Expression.IsLegible : Expression → Prop
  | .literal _ value => value.IsUnsigned
  | .reference _ name => isWord name = true
  | .operation _ operator operands =>
      (operator ∈ infixOperators ∨ isWord operator = true) ∧ Expression.AllLegible operands

/-- Whether all expressions of a list are legible. -/
def Expression.AllLegible : List Expression → Prop
  | [] => True
  | e :: rest => e.IsLegible ∧ Expression.AllLegible rest

end

/-! ## Layouts of operations -/

namespace Listing

variable {operator : String}

/-- An operator between two operands. -/
theorem operationText_between (h : operator ∈ infixOperators) (left right : Operand) :
    operationText operator [left, right] =
      left.enclosed ++ " " ++ operator ++ " " ++ right.enclosed :=
  if_pos (List.contains_iff_mem.mpr h)

/-- A sign before an operand. -/
theorem operationText_sign (h : operator ∈ signOperators) (a : Operand) :
    operationText operator [a] = operator ++ a.enclosed :=
  if_pos (List.contains_iff_mem.mpr h)

/-- The text of a call. -/
def callText (operator : String) (operands : List Operand) : String :=
  operator ++ "(" ++ ", ".intercalate (operands.map Operand.text) ++ ")"

/-- Where an operator neither stands between two operands nor before one, it is called. -/
theorem operationText_call {operands : List Operand}
    (hbetween : operator ∈ infixOperators → operands.length ≠ 2)
    (hsign : operator ∈ signOperators → operands.length ≠ 1) :
    operationText operator operands = callText operator operands := by
  match operands, hbetween, hsign with
  | [], _, _ => rfl
  | [a], _, hsign => exact if_neg fun h => hsign (List.contains_iff_mem.mp h) rfl
  | [a, b], hbetween, _ => exact if_neg fun h => hbetween (List.contains_iff_mem.mp h) rfl
  | _ :: _ :: _ :: _, _, _ => rfl

end Listing

namespace Listing.Reader

/-! ## Operators and functions -/

/-- An operator is a mark of its own. -/
theorem exists_mark {operator : String} (h : operator ∈ infixOperators) :
    ∃ c, operator = String.singleton c ∧ isMark c = true ∧ operator? (.mark c) = some operator := by
  simp only [infixOperators, List.mem_cons, List.not_mem_nil, or_false] at h
  rcases h with rfl | rfl | rfl | rfl | rfl
  · exact ⟨'+', rfl, rfl, rfl⟩
  · exact ⟨'-', rfl, rfl, rfl⟩
  · exact ⟨'*', rfl, rfl, rfl⟩
  · exact ⟨'/', rfl, rfl, rfl⟩
  · exact ⟨'^', rfl, rfl, rfl⟩

/-- The signs are among the operators. -/
theorem mem_infixOperators {operator : String} (h : operator ∈ signOperators) :
    operator ∈ infixOperators := by
  revert operator
  decide

/-! ## What is read of an expression -/

variable {e a b : Expression} {us vs : List Token}

/-- How the text of an expression is read. -/
structure IsRead (e : Expression) (us : List Token) : Prop where
  /-- The tokens of the text. -/
  spells : Spells e.listed.toList us
  /-- The tokens are an expression. -/
  reads : ReadsExpression us e.erase
  /-- Unless it needs parentheses, the expression is an operand, which has none around it. -/
  operand : isCompound e = false → ReadsOperand us e.erase ∧ Bare us

/-- An operand that has no parentheses around it is read in every place. -/
theorem isRead_of_operand (hspells : Spells e.listed.toList us) (hreads : ReadsOperand us e.erase)
    (hbare : Bare us) : IsRead e us :=
  ⟨hspells, hreads.expression, fun _ => ⟨hreads, hbare⟩⟩

/-- **Every operand is read as such**, with parentheses around it if it needs them. -/
theorem IsRead.enclosed (h : IsRead e us) :
    ∃ vs, Spells (Operand.mk e.listed (isCompound e)).enclosed.toList vs ∧
      ReadsOperand vs e.erase := by
  rcases hcompound : isCompound e with _ | _
  · exact ⟨us, h.spells, (h.operand hcompound).1⟩
  · refine ⟨.mark '(' :: (us ++ [.mark ')']), ?_, h.reads.group⟩
    have hchars : (Operand.mk e.listed true).enclosed.toList = '(' :: (e.listed.toList ++ [')']) := by
      rw [Operand.enclosed, if_pos rfl, String.toList_append, String.toList_append, List.append_assoc]
      rfl
    rw [hchars]
    exact (h.spells.closed rfl).mark rfl

/-- A number is written as a numeral of which the literal is read. -/
theorem exists_numeral_literal {value : Literal} (h : value.IsNumber) :
    ∃ n : Numeral, value.text = n.text false ∧ literalOf n = value := by
  cases value with
  | integer v =>
      refine ⟨.ofInt v.toInt, rfl, ?_⟩
      rw [literalOf, Numeral.toInt?_ofInt]
      exact congrArg Literal.integer (Int64.ofInt_toInt v)
  | real x =>
      refine ⟨Literal.realLayout.numeral x, Literal.realLayout.text_eq h, ?_⟩
      rw [literalOf, Layout.toInt?_numeral rfl]
      exact congrArg Literal.real (Layout.toFloat_numeral _ h)
  | boolean _ | string _ => exact h.elim

/-- A number without a minus sign is read. -/
theorem exists_isRead_literal {value : Literal} (h : value.IsUnsigned) (id : Nat) :
    ∃ us, IsRead (.literal id value) us := by
  obtain ⟨n, htext, hliteral⟩ := exists_numeral_literal h.1
  have hunsigned : n.negative = false := by
    rw [Bool.eq_false_iff]
    intro hnegative
    apply h.2
    rw [htext, Numeral.text, String.toList_ofList, Numeral.chars, Numeral.signText,
      if_pos hnegative]
    rfl
  have hchars : (Expression.literal id value).listed.toList =
      n.pointText ++ Numeral.exponentText false n.exponent := by
    rw [Expression.listed, htext, Numeral.text, String.toList_ofList, Numeral.chars,
      Numeral.signText, hunsigned]
    rfl
  have hreads := readsOperand_number n
  rw [hliteral] at hreads
  refine ⟨[.number n], isRead_of_operand ?_ hreads ⟨.number n, [], rfl, ?_⟩⟩
  · rw [hchars]
    exact Spells.numeral false hunsigned
  · rintro ⟨⟩

/-- A reference is read as its name. -/
theorem isRead_reference {name : String} (h : isWord name = true) (id : Nat) :
    IsRead (.reference id name) [.name name] :=
  isRead_of_operand (Spells.name h) (readsOperand_name name) ⟨_, _, rfl, nofun⟩

/-- An operator is read between two operands. -/
theorem IsRead.between {operator : String} (h : operator ∈ infixOperators) (ha : IsRead a us)
    (hb : IsRead b vs) (id : Nat) : ∃ ws, IsRead (.operation id operator [a, b]) ws := by
  obtain ⟨c, hoperator, hmark, ht⟩ := exists_mark h
  obtain ⟨us', hspells, hleft⟩ := ha.enclosed
  obtain ⟨vs', hspells', hright⟩ := hb.enclosed
  refine ⟨us' ++ .mark c :: vs', ?_, hleft.between ht hright, fun hcompound => ?_⟩
  · have hchars : (Expression.operation id operator [a, b]).listed.toList =
        (Operand.mk a.listed (isCompound a)).enclosed.toList ++
          ' ' :: c :: ' ' :: (Operand.mk b.listed (isCompound b)).enclosed.toList := by
      rw [Expression.listed, Expression.listedAll, Expression.listedAll, Expression.listedAll,
        operationText_between h, hoperator]
      simp [String.toList_append]
    rw [hchars]
    exact hspells.spaced (hspells'.blank.mark hmark)
  · rw [isCompound, List.contains_iff_mem.mpr h] at hcompound
    cases hcompound

/-! ## Calls -/

/-- The token stands for a function before its arguments. -/
structure Calls (operator : String) (t : Token) : Prop where
  /-- The name and a parenthesis are two tokens. -/
  spells : ∀ {text : List Char} {ts : List Token}, Spells ('(' :: text) ts →
    Spells (operator.toList ++ '(' :: text) (t :: ts)
  /-- The function that is called. -/
  function : function? t = some operator
  /-- The token is no parenthesis itself. -/
  bare : t ≠ .mark '('

/-- Operators and words may be called. -/
theorem exists_calls {operator : String} (h : operator ∈ infixOperators ∨ isWord operator = true) :
    ∃ t, Calls operator t := by
  rcases h with h | h
  · obtain ⟨c, rfl, hmark, ht⟩ := exists_mark h
    refine ⟨.mark c, fun hspells => ?_, ht, ?_⟩
    · rw [String.toList_singleton]
      exact hspells.mark hmark
    · rintro ⟨⟩
      cases ht
  · exact ⟨.name operator, fun hspells => (Spells.name h).append rfl hspells, rfl, nofun⟩

variable {es : List Expression}

/-- A call is read if its arguments are. -/
theorem exists_isRead_call {operator : String} {t : Token} (h : ∀ e ∈ es, ∃ us, IsRead e us)
    (hcalls : Calls operator t) {id : Nat} (hlisted : (Expression.operation id operator es).listed =
      callText operator (Expression.listedAll es)) :
    ∃ us, IsRead (.operation id operator es) us := by
  have hitems : ∀ e ∈ es, ∃ us, Spells e.listed.toList us ∧ expressions.ReadsArgument us e.erase := by
    intro e he
    obtain ⟨us, hread⟩ := h e he
    exact ⟨us, hread.spells, hread.reads.argument⟩
  obtain ⟨us, harguments⟩ := Token.Reader.exists_areArguments es hitems
  have hchars : (Expression.operation id operator es).listed.toList = operator.toList ++
      '(' :: ([',', ' '].intercalate (es.map fun e => e.listed.toList) ++ [')']) := by
    rw [hlisted, callText, Expression.listedAll_eq]
    simp only [String.toList_append, String.toList_intercalate, List.map_map, List.append_assoc]
    rfl
  have hreads : expressions.ReadsArguments us (Expression.eraseAll es) := by
    rw [Expression.eraseAll_eq]
    exact harguments.reads
  refine ⟨t :: .mark '(' :: us,
    isRead_of_operand ?_ (readsOperand_call hreads hcalls.function) ⟨_, _, rfl, hcalls.bare⟩⟩
  rw [hchars]
  exact hcalls.spells (harguments.spells.mark rfl)

/-- A sign is read before its operand.  With parentheses around the operand it is read as called. -/
theorem IsRead.sign {operator : String} (h : operator ∈ signOperators) (ha : IsRead a us) (id : Nat) :
    ∃ vs, IsRead (.operation id operator [a]) vs := by
  have hoperator := mem_infixOperators h
  have hlisted : (Expression.operation id operator [a]).listed =
      operator ++ (Operand.mk a.listed (isCompound a)).enclosed := operationText_sign h _
  rcases hcompound : isCompound a with _ | _
  · obtain ⟨hreads, hbare⟩ := ha.operand hcompound
    obtain ⟨c, rfl, hmark, ht⟩ := exists_mark hoperator
    refine ⟨.mark c :: us, isRead_of_operand ?_ (hreads.sign ht hbare) ⟨_, _, rfl, ?_⟩⟩
    · rw [hlisted, hcompound, String.toList_append, String.toList_singleton]
      exact ha.spells.mark hmark
    · rintro ⟨⟩
      cases ht
  · obtain ⟨t, hcalls⟩ := exists_calls (.inl hoperator)
    refine exists_isRead_call (List.forall_mem_singleton.mpr ⟨us, ha⟩) hcalls (hlisted.trans ?_)
    rw [hcompound, Operand.enclosed, if_pos rfl, callText, Expression.listedAll, Expression.listedAll,
      List.map_singleton, String.intercalate_singleton]
    simp only [String.append_assoc]

/-! ## Legible expressions are read -/

/-- An operation is read if its operands are. -/
theorem exists_isRead_operation {operator : String}
    (hoperator : operator ∈ infixOperators ∨ isWord operator = true)
    (h : ∀ e ∈ es, ∃ us, IsRead e us) (id : Nat) :
    ∃ us, IsRead (.operation id operator es) us := by
  by_cases hbetween : operator ∈ infixOperators ∧ es.length = 2
  · obtain ⟨hbinary, hlength⟩ := hbetween
    obtain ⟨a, b, rfl⟩ := List.length_eq_two.mp hlength
    obtain ⟨us, ha⟩ := h a (by simp)
    obtain ⟨vs, hb⟩ := h b (by simp)
    exact ha.between hbinary hb id
  · by_cases hsign : operator ∈ signOperators ∧ es.length = 1
    · obtain ⟨hmem, hlength⟩ := hsign
      obtain ⟨a, rfl⟩ := List.length_eq_one_iff.mp hlength
      obtain ⟨us, ha⟩ := h a (by simp)
      exact ha.sign hmem id
    · obtain ⟨t, hcalls⟩ := exists_calls hoperator
      have hlength : (Expression.listedAll es).length = es.length := by
        rw [Expression.listedAll_eq, List.length_map]
      exact exists_isRead_call h hcalls (operationText_call
        (fun hmem hl => hbetween ⟨hmem, hlength ▸ hl⟩) fun hmem hl => hsign ⟨hmem, hlength ▸ hl⟩)

mutual

/-- **The text of a legible expression is read.** -/
theorem exists_isRead : ∀ e : Expression, e.IsLegible → ∃ us, IsRead e us
  | .literal id _, h => exists_isRead_literal h id
  | .reference id _, h => ⟨_, isRead_reference h id⟩
  | .operation id _ operands, ⟨hoperator, hoperands⟩ =>
      exists_isRead_operation hoperator (forall_isRead operands hoperands) id

/-- The texts of legible operands are read. -/
theorem forall_isRead : ∀ es : List Expression, Expression.AllLegible es →
    ∀ e ∈ es, ∃ us, IsRead e us
  | [], _ => nofun
  | e :: rest, ⟨he, hrest⟩ =>
      List.forall_mem_cons.mpr ⟨exists_isRead e he, forall_isRead rest hrest⟩

end

end Listing.Reader

namespace Expression

variable {e f : Expression}

/-- **Reading is the inverse of writing**, but for the numbers of the nodes. -/
theorem read?_listed (h : e.IsLegible) : Reader.read? e.listed = some e.erase := by
  obtain ⟨us, he⟩ := Reader.exists_isRead e h
  exact he.reads.read? he.spells

/-- Legible expressions have the same text just if they differ in numbers only. -/
theorem listed_eq_iff (he : e.IsLegible) (hf : f.IsLegible) :
    e.listed = f.listed ↔ e.erase = f.erase := by
  constructor
  · intro h
    have hread := read?_listed he
    rw [h, read?_listed hf] at hread
    exact (Option.some.inj hread).symm
  · intro h
    rw [← listed_erase e, h, listed_erase]

end Expression

/-! ## Numbered units -/

/-- The outer visit of an expression tells where its text is. -/
theorem SourceUnit.find?_listing {u : SourceUnit} {event : Event} {e : Expression}
    (h : event ∈ u.numbered.walk) (he : event.node = .expression e) :
    u.numbered.listing.find? e.id = some e.listed := by
  have hshows := shows_listing h
  rw [he] at hshows
  exact hshows

/-- **The listing determines legible expressions.**  In the listing of a numbered unit every node that
the walk visits has the text that the recursion over the node makes, and where a visit is left, the
children have these texts already, so that no question mark is written.  Legible expressions of
numbered units have the same text just if they are equal up to the numbers of nodes. -/
theorem SourceUnit.listing_determines (u v : SourceUnit) :
    (∀ event ∈ u.numbered.walk,
      u.numbered.listing.find? event.node.id = some event.node.listed) ∧
    (∀ before event after, u.numbered.walk = before ++ event :: after → event.hook = .exit →
      ∀ child ∈ event.node.children,
        (before.foldl Lister.step {}).texts.find? child.id = some child.listed) ∧
    ∀ event ∈ u.numbered.walk, ∀ event' ∈ v.numbered.walk, ∀ e f,
      event.node = .expression e → event'.node = .expression f → e.IsLegible → f.IsLegible →
        (u.numbered.listing.find? e.id = v.numbered.listing.find? f.id ↔ e.erase = f.erase) := by
  refine ⟨fun event => shows_listing, fun before event after => shows_children, ?_⟩
  intro event hevent event' hevent' e f he hf hlegible hlegible'
  rw [find?_listing hevent he, find?_listing hevent' hf, Option.some_inj,
    Expression.listed_eq_iff hlegible hlegible']

/-- A unit with the equation of a sum with a sign and a call of the operator, `+(a + 1) = +(a, 1, b)`. -/
def signedSum : SourceUnit where
  classes := .ofList [("M", (ClassDef.new "M").addEquation
    (.apply "+" [.apply "+" [.ref "a", .ofLiteral (.integer 1)]])
    (.apply "+" [.ref "a", .ofLiteral (.integer 1), .ref "b"]))]

/-- A sum with a sign is not written like the call of the operator: `+(a + 1)` and `+(a, 1, b)` are at
the numbers of the sides of the equation. -/
theorem SourceUnit.listing_determines_signedSum :
    signedSum.numbered.listing.find? 3 ≠ signedSum.numbered.listing.find? 7 := by
  let left : Expression :=
    .operation 3 "+" [.operation 2 "+" [.reference 0 "a", .literal 1 (.integer 1)]]
  let right : Expression := .operation 7 "+" [.reference 4 "a", .literal 5 (.integer 1), .reference 6 "b"]
  have hleft : ⟨.enterAny, .expression left, some 8⟩ ∈ signedSum.numbered.walk :=
    List.mem_of_getElem? (i := 6) rfl
  have hright : ⟨.enterAny, .expression right, some 8⟩ ∈ signedSum.numbered.walk :=
    List.mem_of_getElem? (i := 38) rfl
  have hword : isWord "a" = true ∧ isWord "b" = true := by decide
  have hone : (Literal.integer 1).IsUnsigned := ⟨trivial, by decide +kernel⟩
  have hplus : "+" ∈ infixOperators := List.mem_cons_self
  intro h
  have herase := (SourceUnit.listing_determines signedSum signedSum).2.2 _ hleft _ hright
    left right rfl rfl ⟨.inl hplus, ⟨.inl hplus, hword.1, hone, trivial⟩, trivial⟩
    ⟨.inl hplus, hword.1, hone, hword.2, trivial⟩
  cases herase.mp h

end FlatModel
