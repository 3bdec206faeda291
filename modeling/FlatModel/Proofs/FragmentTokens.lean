import FlatModel.Emission.Fragment
import FlatModel.Proofs.FreeIdentifiers
import FlatModel.Proofs.JsonTokens
import FlatModel.Proofs.OrderedMaps

/-!
# The tokens of source fragments

A fragment of generated source as a row of numbers, names and marks.

* `Fragment.Token.ofChars?` — the tokens of a text, the blanks between them dropped.
* `Fragment.isWord` — dotted names and the names of functions; `isWord_sanitize`,
  `isWord_callName` — identifiers of words and names by which words are called are words.
* `Fragment.Spells` — a text that has the given tokens wherever no word goes on behind it.
* `Spells.numeral`, `Spells.name`, `Spells.mark` — the pieces of fragments; `Spells.append`,
  `Spells.spaced`, `Spells.marked`, `Spells.closed` — how they are put together.
-/

namespace FlatModel.Fragment

open Decimal

/-! ## Tokens -/

/-- The smallest meaningful pieces of a fragment. -/
inductive Token where
  /-- A number without sign. -/
  | number (value : Numeral)
  /-- A name, dots included. -/
  | name (text : String)
  /-- Any other character. -/
  | mark (c : Char)
  deriving DecidableEq, Repr

/-- Whether a name may begin with the character. -/
def isNameStart (c : Char) : Bool := c.isAlpha || c == '_'

/-- Whether a name may go on with the character. -/
def isNameChar (c : Char) : Bool := c.isAlphanum || c == '_' || c == '.'

/-- Whether the character is a token of its own. -/
def isMark (c : Char) : Bool := !c.isWhitespace && !isNameChar c

namespace Token

/-- One token at the front of a text that begins with no blank. -/
def scan (c : Char) (s : List Char) : Option (Token × List Char) :=
  if c.isDigit then
    (Json.Token.scanUnsigned false (c :: s)).map fun p => (.number p.1, p.2)
  else if isNameStart c then
    some (.name (String.ofList (c :: s.takeWhile isNameChar)), s.dropWhile isNameChar)
  else some (.mark c, s)

/-- A token takes at least one character. -/
theorem length_scan {c : Char} {s rest : List Char} {t : Token} (h : scan c s = some (t, rest)) :
    rest.length ≤ s.length := by
  unfold scan at h
  split at h
  · obtain ⟨p, hp, he⟩ := Option.map_eq_some_iff.mp h
    cases he
    exact Nat.le_of_lt_succ (Json.Token.length_scanUnsigned (n := p.1) (by rw [hp]))
  · split at h
    · cases h
      exact (List.dropWhile_suffix _).length_le
    · cases h
      exact Nat.le_refl _

/-- All tokens of a text, `none` if a number in it is not well written. -/
def ofChars? : List Char → Option (List Token)
  | [] => some []
  | c :: s =>
      if c.isWhitespace then ofChars? s
      else
        match h : scan c s with
        | none => none
        | some (t, rest) =>
            have := length_scan h
            (ofChars? rest).map (t :: ·)
termination_by s => s.length
decreasing_by
  · exact Nat.lt_succ_self s.length
  · exact Nat.lt_succ_of_le this

/-- A blank at the front is dropped. -/
theorem ofChars?_blank (s : List Char) : ofChars? (' ' :: s) = ofChars? s := by
  rw [ofChars?, if_pos (by decide)]

/-- The tokens of a text that begins with a token. -/
theorem ofChars?_of_scan {c : Char} {s rest : List Char} {t : Token} (hc : c.isWhitespace = false)
    (h : scan c s = some (t, rest)) : ofChars? (c :: s) = (ofChars? rest).map (t :: ·) := by
  rw [ofChars?, if_neg (by rw [hc]; decide)]
  split
  · rename_i hnone
    rw [hnone] at h
    cases h
  · rename_i t' rest' hsome
    rw [hsome] at h
    cases h
    rfl

end Token

/-! ## Words -/

theorem isNameChar_of_isDigit {c : Char} (h : c.isDigit = true) : isNameChar c = true := by
  simp [isNameChar, Char.isAlphanum, h]

theorem isNameChar_of_isNameStart {c : Char} (h : isNameStart c = true) : isNameChar c = true := by
  rw [isNameStart, Bool.or_eq_true] at h
  rcases h with h | h <;> simp [isNameChar, Char.isAlphanum, h]

/-- What a word or a number begins with is no blank. -/
theorem isWhitespace_of_isNameChar {c : Char} (h : isNameChar c = true) :
    c.isWhitespace = false := by
  rw [Bool.eq_false_iff]
  intro hblank
  simp only [Char.isWhitespace, Bool.or_eq_true, decide_eq_true_eq] at hblank
  rcases hblank with ((rfl | rfl) | rfl) | rfl <;> exact absurd h (by decide)

/-- No name begins with a digit. -/
theorem isDigit_of_isNameStart {c : Char} (h : isNameStart c = true) : c.isDigit = false := by
  rw [isNameStart, Bool.or_eq_true, beq_iff_eq] at h
  rcases h with h | rfl
  · -- the ranges of letters and of digits do not meet
    change (decide (c.val ≥ 65 ∧ c.val ≤ 90) ||
      (decide (c.val ≥ 97) && decide (c.val ≤ 122))) = true at h
    change (decide (c.val ≥ 48) && decide (c.val ≤ 57)) = false
    grind
  · decide

/-- Whether a text is a letter or underscore with letters, digits, underscores and dots behind
it, as dotted names and the names of functions are. -/
def isWord (text : String) : Bool :=
  match text.toList with
  | [] => false
  | c :: s => isNameStart c && s.all isNameChar

/-- The characters of a word. -/
theorem isWord_iff {text : String} : isWord text = true ↔
    ∃ c s, text.toList = c :: s ∧ isNameStart c = true ∧ ∀ d ∈ s, isNameChar d = true := by
  unfold isWord
  cases text.toList with
  | nil => simp
  | cons c s =>
      rw [Bool.and_eq_true, List.all_eq_true]
      constructor
      · exact fun h => ⟨c, s, rfl, h⟩
      · rintro ⟨c, s, ⟨⟩, h⟩
        exact h

/-- A word with an underscore at its end is a word. -/
theorem isWord_push {text : String} (h : isWord text = true) : isWord (text.push '_') = true := by
  obtain ⟨c, s, htext, hc, hs⟩ := isWord_iff.mp h
  rw [isWord_iff]
  refine ⟨c, s ++ ['_'], by rw [String.toList_push, htext, List.cons_append], hc, ?_⟩
  intro d hd
  rcases List.mem_append.mp hd with hd | hd
  · exact hs d hd
  · rw [List.mem_singleton.mp hd]
    decide

/-- The flat form of a word is a word. -/
theorem isWord_flatten {name : String} (h : isWord name = true) :
    isWord (Identifier.flatten name) = true := by
  obtain ⟨c, s, hname, hc, hs⟩ := isWord_iff.mp h
  have hdot : c ≠ '.' := by
    rintro rfl
    cases hc
  rw [isWord_iff, Identifier.flatten, String.toList_ofList, hname, List.flatMap_cons,
    Identifier.flattenChar, if_neg hdot]
  refine ⟨c, s.flatMap Identifier.flattenChar, rfl, hc, ?_⟩
  intro d hd
  obtain ⟨b, hb, hd⟩ := List.mem_flatMap.mp hd
  unfold Identifier.flattenChar at hd
  split at hd
  · have hunderscore : d = '_' := by simpa using hd
    rw [hunderscore]
    decide
  · rw [List.mem_singleton.mp hd]
    exact hs b hb

/-- **The identifier of a word is a word.** -/
theorem isWord_sanitize {name : String} (h : isWord name = true) :
    isWord (Identifier.sanitize name) = true :=
  Identifier.avoid_keeps (p := fun s => isWord s = true) (fun _ => isWord_push) _ _
    (isWord_flatten h)

/-- The name by which a word is called is a word. -/
theorem isWord_callName {operator : String} (h : isWord operator = true) :
    isWord (Emission.callName operator) = true := by
  have htable : ∀ p ∈ Emission.callTable, isWord p.2 = true := by decide
  unfold Emission.callName
  rcases hlookup : Emission.callTable.lookup operator with _ | call
  · exact h
  · rw [OrderedMap.lookup_eq_some_iff_mem (by decide)] at hlookup
    exact htable _ hlookup

/-! ## Texts and their tokens -/

/-- What follows a word or a number and does not go on with it. -/
def NoWord (rest : List Char) : Prop := ∀ c ∈ rest.head?, isNameChar c = false

/-- The text has the tokens wherever no word goes on behind it. -/
def Spells (text : List Char) (ts : List Token) : Prop :=
  ∀ rest, NoWord rest →
    Token.ofChars? (text ++ rest) = (Token.ofChars? rest).map (ts ++ ·)

namespace Spells

variable {text more : List Char} {ts us : List Token}

/-- The tokens of a whole text. -/
theorem ofChars?_eq (h : Spells text ts) : Token.ofChars? text = some ts := by
  have hall := h [] (by rintro c ⟨⟩)
  rw [List.append_nil] at hall
  rw [hall, Token.ofChars?]
  simp

/-- Nothing has no token. -/
theorem nil : Spells [] [] := by
  intro rest _
  rw [List.nil_append]
  cases Token.ofChars? rest <;> rfl

/-- A blank is no token. -/
theorem blank (h : Spells text ts) : Spells (' ' :: text) ts := by
  intro rest hrest
  rw [List.cons_append, Token.ofChars?_blank, h rest hrest]

/-- A mark is a token. -/
theorem mark {c : Char} (hc : isMark c = true) (h : Spells text ts) :
    Spells (c :: text) (.mark c :: ts) := by
  intro rest hrest
  rw [isMark, Bool.and_eq_true, Bool.not_eq_true', Bool.not_eq_true'] at hc
  obtain ⟨hblank, hword⟩ := hc
  have hdigit : ¬ c.isDigit = true := fun hdigit => by
    rw [isNameChar_of_isDigit hdigit] at hword
    cases hword
  have hstart : ¬ isNameStart c = true := fun hstart => by
    rw [isNameChar_of_isNameStart hstart] at hword
    cases hword
  have hscan : Token.scan c (text ++ rest) = some (.mark c, text ++ rest) := by
    rw [Token.scan, if_neg hdigit, if_neg hstart]
  rw [List.cons_append, Token.ofChars?_of_scan hblank hscan, h rest hrest, Option.map_map]
  rfl

/-- **A text goes on behind another one** if no word does. -/
theorem append {c : Char} (h : Spells text ts) (hc : isNameChar c = false)
    (hmore : Spells (c :: more) us) : Spells (text ++ c :: more) (ts ++ us) := by
  intro rest hrest
  have hnext : NoWord (c :: more ++ rest) := by
    rintro d ⟨⟩
    exact hc
  rw [List.append_assoc, h _ hnext, hmore rest hrest, Option.map_map]
  congr 1
  funext vs
  exact (List.append_assoc ts us vs).symm

/-- A text with a blank before the next one. -/
theorem spaced (h : Spells text ts) (hmore : Spells more us) :
    Spells (text ++ ' ' :: more) (ts ++ us) :=
  h.append rfl hmore.blank

/-- A text with a mark before the next one. -/
theorem marked {c : Char} (hc : isMark c = true) (h : Spells text ts) (hmore : Spells more us) :
    Spells (text ++ c :: more) (ts ++ .mark c :: us) := by
  have hword : isNameChar c = false := by
    rw [isMark, Bool.and_eq_true, Bool.not_eq_true', Bool.not_eq_true'] at hc
    exact hc.2
  exact h.append hword (hmore.mark hc)

/-- A text with a mark behind it. -/
theorem closed {c : Char} (hc : isMark c = true) (h : Spells text ts) :
    Spells (text ++ [c]) (ts ++ [.mark c]) :=
  h.marked hc nil

/-- A word is a name. -/
theorem name {word : String} (h : isWord word = true) : Spells word.toList [.name word] := by
  intro rest hrest
  obtain ⟨c, s, hword, hc, hs⟩ := isWord_iff.mp h
  have hstop : rest.takeWhile isNameChar = [] ∧ rest.dropWhile isNameChar = rest := by
    cases rest with
    | nil => simp
    | cons d rest =>
        have hd : isNameChar d = false := hrest d rfl
        simp [hd]
  have hscan : Token.scan c (s ++ rest) = some (.name word, rest) := by
    rw [Token.scan, if_neg (by rw [isDigit_of_isNameStart hc]; decide), if_pos hc,
      List.takeWhile_append_of_pos hs, List.dropWhile_append_of_pos hs, hstop.1, hstop.2,
      List.append_nil, ← hword, String.ofList_toList]
  have hblank := isWhitespace_of_isNameChar (isNameChar_of_isNameStart hc)
  rw [hword, List.cons_append, Token.ofChars?_of_scan hblank hscan]
  rfl

/-- A numeral without sign is a number, whether or not its exponent is marked with a plus sign. -/
theorem numeral (plus : Bool) {n : Numeral} (h : n.negative = false) :
    Spells (n.pointText ++ Numeral.exponentText plus n.exponent) [.number n] := by
  intro rest hrest
  have hnumeral : Json.NoNumeral rest := by
    intro c hc
    have hword := hrest c hc
    refine ⟨?_, ?_, ?_, ?_⟩
    · rw [Bool.eq_false_iff]
      intro hdigit
      rw [isNameChar_of_isDigit hdigit] at hword
      cases hword
    all_goals
      rintro rfl
      cases hword
  have hunsigned := Json.scanUnsigned_append plus n hnumeral
  obtain ⟨c, s, hpoint, hc⟩ := n.exists_pointText_eq
  rw [h, hpoint, List.cons_append] at hunsigned
  have hscan : Token.scan c (s ++ (Numeral.exponentText plus n.exponent ++ rest)) =
      some (.number n, rest) := by
    rw [Token.scan, if_pos hc, hunsigned, Option.map_some]
  have hblank := isWhitespace_of_isNameChar (isNameChar_of_isDigit hc)
  rw [hpoint, List.append_assoc, List.cons_append, Token.ofChars?_of_scan hblank hscan]
  rfl

end Spells

end FlatModel.Fragment
