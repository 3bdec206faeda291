import FlatModel.Json.Parser
import FlatModel.Proofs.JsonTokens

/-!
# Reading what was printed

A JSON value is read back from its compact text.  The only values that are not are those with a
string that is no text, which is printed as the empty one.

* `Json.ofChars?_chars` — the tokens of a printed value are `Json.tokens`.
* `Json.State.run_tokens` — the machine that reads them ends with the value, at any depth.
* `Json.parse?_compact` — the two together.
* `Json.compact_injective` — two values of one compact text are one value.
-/

namespace FlatModel.Json

open Token

/-! ## Values whose strings are text -/

mutual

/-- Whether all strings and names in a value are text. -/
def IsText : Json → Prop
  | .null | .bool _ | .number _ => True
  | .string s => s.isSome
  | .array items => AllText items
  | .object members => MembersText members

/-- Whether all strings and names in some items are text. -/
def AllText : List Json → Prop
  | [] => True
  | item :: rest => item.IsText ∧ AllText rest

/-- Whether all strings and names in some members are text. -/
def MembersText : List (Option String × Json) → Prop
  | [] => True
  | (name, value) :: rest => name.isSome ∧ value.IsText ∧ MembersText rest

end

/-! ## The tokens of a printed value -/

mutual

/-- The tokens of a value. -/
def tokens : Json → List Token
  | .null => [.null]
  | .bool b => [.bool b]
  | .number n => [.number n]
  | .string s => [.string (some (s.getD ""))]
  | .array [] => [.openBracket, .closeBracket]
  | .array (item :: rest) => .openBracket :: (item.tokens ++ itemsTokens rest)
  | .object [] => [.openBrace, .closeBrace]
  | .object ((name, value) :: rest) =>
      .openBrace :: .string (some (name.getD "")) :: .colon :: (value.tokens ++ membersTokens rest)

/-- The tokens of the items after the first with the closing bracket. -/
def itemsTokens : List Json → List Token
  | [] => [.closeBracket]
  | item :: rest => .comma :: (item.tokens ++ itemsTokens rest)

/-- The tokens of the members after the first with the closing brace. -/
def membersTokens : List (Option String × Json) → List Token
  | [] => [.closeBrace]
  | (name, value) :: rest =>
      .comma :: .string (some (name.getD "")) :: .colon :: (value.tokens ++ membersTokens rest)

end

/-- No numeral goes on after an item of an array. -/
theorem noNumeral_itemsChars (items : List Json) (rest : List Char) :
    NoNumeral (itemsChars items ++ rest) := by
  intro c hc
  cases items with
  | nil => cases hc; decide
  | cons item items => cases hc; decide

/-- No numeral goes on after a member of an object. -/
theorem noNumeral_membersChars (members : List (Option String × Json)) (rest : List Char) :
    NoNumeral (membersChars members ++ rest) := by
  intro c hc
  cases members with
  | nil => cases hc; decide
  | cons m members => cases hc; decide

-- By recursion over the value.  Inside a container a comma or a closing mark follows, so what follows
-- never goes on a numeral, and the hypothesis holds again for every part.
mutual

/-- **The tokens of a printed value**, followed by those of what no numeral can take in. -/
theorem ofChars?_chars (rest : List Char) (hrest : NoNumeral rest) : ∀ j : Json,
    ofChars? (j.chars ++ rest) = (ofChars? rest).map (j.tokens ++ ·)
  | .null => ofChars?_null
  | .bool b => ofChars?_boolChars b
  | .number n => ofChars?_numeral n hrest
  | .string s => ofChars?_quote _
  | .array [] => by
      simp only [chars, List.cons_append, List.nil_append, tokens]
      rw [ofChars?_mark (c := '[') rfl, ofChars?_mark (c := ']') rfl, Option.map_map]
      rfl
  | .array (item :: items) => by
      have hnumeral := noNumeral_itemsChars items rest
      simp only [chars, List.cons_append, List.append_assoc, tokens]
      rw [ofChars?_mark (c := '[') rfl, ofChars?_chars _ hnumeral item,
        ofChars?_itemsChars rest items, Option.map_map, Option.map_map]
      rfl
  | .object [] => by
      simp only [chars, List.cons_append, List.nil_append, tokens]
      rw [ofChars?_mark (c := '\x7b') rfl, ofChars?_mark (c := '\x7d') rfl, Option.map_map]
      rfl
  | .object ((name, value) :: members) => by
      have hnumeral := noNumeral_membersChars members rest
      simp only [chars, stringChars, List.cons_append, List.append_assoc, tokens]
      rw [ofChars?_mark (c := '\x7b') rfl, ofChars?_quote, ofChars?_mark (c := ':') rfl,
        ofChars?_chars _ hnumeral value, ofChars?_membersChars rest members]
      simp only [Option.map_map]
      rfl

/-- The tokens of the items after the first. -/
theorem ofChars?_itemsChars (rest : List Char) : ∀ items : List Json,
    ofChars? (itemsChars items ++ rest) = (ofChars? rest).map (itemsTokens items ++ ·)
  | [] => ofChars?_mark rfl
  | item :: items => by
      have hnumeral := noNumeral_itemsChars items rest
      simp only [itemsChars, List.cons_append, List.append_assoc, itemsTokens]
      rw [ofChars?_mark (c := ',') rfl, ofChars?_chars _ hnumeral item,
        ofChars?_itemsChars rest items, Option.map_map, Option.map_map]
      rfl

/-- The tokens of the members after the first. -/
theorem ofChars?_membersChars (rest : List Char) : ∀ members : List (Option String × Json),
    ofChars? (membersChars members ++ rest) = (ofChars? rest).map (membersTokens members ++ ·)
  | [] => ofChars?_mark rfl
  | (name, value) :: members => by
      have hnumeral := noNumeral_membersChars members rest
      simp only [membersChars, stringChars, List.cons_append, List.append_assoc, membersTokens]
      rw [ofChars?_mark (c := ',') rfl, ofChars?_quote, ofChars?_mark (c := ':') rfl,
        ofChars?_chars _ hnumeral value, ofChars?_membersChars rest members]
      simp only [Option.map_map]
      rfl

end

/-! ## The machine on the tokens of a value -/

namespace State

/-- One token of a row. -/
theorem run_cons {s s' : State} {t : Token} (ts : List Token) (h : s.step t = some s') :
    s.run (t :: ts) = s'.run ts := by
  rw [run, h]

/-- The first item of an array is read as any value. -/
theorem run_firstItem (stack : List Frame) (ts : List Token) (j : Json) :
    (State.firstItem stack).run (j.tokens ++ ts) =
      (State.value (.array [] :: stack)).run (j.tokens ++ ts) := by
  cases j with
  | array items => cases items <;> rfl
  | object members => cases members <;> rfl
  | _ => rfl

-- By recursion over the value, for any stack: what is open around a value does not change while it is
-- read.  The items and members read so far lie in the frame on top, last first.
mutual

/-- **The machine reads the tokens of a value as the value**, whatever is open around it. -/
theorem run_tokens (stack : List Frame) (ts : List Token) : ∀ j : Json, j.IsText →
    (State.value stack).run (j.tokens ++ ts) = (State.after j stack).run ts
  | .null, _ => rfl
  | .bool _, _ => rfl
  | .number _, _ => rfl
  | .string (some _), _ => rfl
  | .array [], _ => rfl
  | .array (item :: items), h => by
      rw [tokens, List.cons_append, List.append_assoc, run_cons _ rfl, run_firstItem,
        run_tokens _ _ item h.1, run_itemsTokens stack [] item ts items h.2]
      rfl
  | .object [], _ => rfl
  | .object ((some key, content) :: members), h => by
      rw [tokens, List.cons_append, List.cons_append, List.cons_append, List.append_assoc,
        run_cons _ rfl, run_cons _ rfl, run_cons _ rfl, Option.getD_some,
        run_tokens _ _ content h.2.1,
        run_membersTokens stack [] (some key) content ts members h.2.2]
      rfl

/-- The machine reads the items after the first into the array that is open. -/
theorem run_itemsTokens (stack : List Frame) (done : List Json) (item : Json) (ts : List Token) :
    ∀ items : List Json, AllText items →
      (State.after item (.array done :: stack)).run (itemsTokens items ++ ts) =
        (State.after (.array (done.reverse ++ item :: items)) stack).run ts
  | [], _ => by
      rw [itemsTokens, List.singleton_append, run_cons _ rfl, List.reverse_cons]
  | next :: items, h => by
      rw [itemsTokens, List.cons_append, List.append_assoc, run_cons _ rfl,
        run_tokens _ _ next h.1, run_itemsTokens stack (item :: done) next ts items h.2,
        List.reverse_cons, List.append_assoc]
      rfl

/-- The machine reads the members after the first into the object that is open. -/
theorem run_membersTokens (stack : List Frame) (done : List (Option String × Json))
    (label : Option String) (item : Json) (ts : List Token) :
    ∀ members : List (Option String × Json), MembersText members →
      (State.after item (.object done label :: stack)).run (membersTokens members ++ ts) =
        (State.after (.object (done.reverse ++ (label, item) :: members)) stack).run ts
  | [], _ => by
      rw [membersTokens, List.singleton_append, run_cons _ rfl, List.reverse_cons]
  | (some key, content) :: members, h => by
      rw [membersTokens, List.cons_append, List.cons_append, List.cons_append, List.append_assoc,
        run_cons _ rfl, run_cons _ rfl, run_cons _ rfl, Option.getD_some,
        run_tokens _ _ content h.2.1,
        run_membersTokens stack ((label, item) :: done) (some key) content ts members h.2.2,
        List.reverse_cons, List.append_assoc]
      rfl

end

end State

/-! ## The round trip -/

/-- The tokens of the compact text of a value. -/
theorem ofChars?_compact (j : Json) : ofChars? j.compact.toList = some j.tokens := by
  have h := ofChars?_chars [] (by simp [NoNumeral]) j
  rw [List.append_nil] at h
  rw [compact, String.toList_ofList, h, ofChars?, Option.map_some, List.append_nil]

/-- **A value is read back from its compact text.** -/
theorem parse?_compact {j : Json} (h : j.IsText) : parse? j.compact = some j := by
  have hrun := State.run_tokens [] [] j h
  rw [List.append_nil] at hrun
  rw [parse?, ofChars?_compact, Option.bind_some, ofTokens?, hrun]
  rfl

/-- Two values of one compact text are one value. -/
theorem compact_injective {j k : Json} (hj : j.IsText) (hk : k.IsText)
    (h : j.compact = k.compact) : j = k := by
  have hparse := parse?_compact hj
  rw [h, parse?_compact hk] at hparse
  exact (Option.some.inj hparse).symm

end FlatModel.Json
