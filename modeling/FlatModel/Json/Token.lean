import FlatModel.Json.Value

/-!
# The tokens of a JSON text

* `Token.scanNumeral`, `Token.scanString`, `Token.scanKeyword` — one piece at the front of a text and
  what follows it.  They refuse a numeral with a leading zero, a raw control character inside
  quotes, an unknown escape.
* `Token.scan` — one token at the front; `length_scan` says that it takes at least one character.
* `Token.ofChars?` — all tokens of a text, the blanks between them dropped.
-/

namespace FlatModel.Json

open Decimal

/-- The smallest meaningful pieces of a JSON text. -/
inductive Token where
  /-- An opening bracket. -/
  | openBracket
  /-- A closing bracket. -/
  | closeBracket
  /-- An opening brace. -/
  | openBrace
  /-- A closing brace. -/
  | closeBrace
  /-- The colon after a name. -/
  | colon
  /-- The comma between items. -/
  | comma
  /-- The keyword `null`. -/
  | null
  /-- One of the keywords `true` and `false`. -/
  | bool (value : Bool)
  /-- A numeral. -/
  | number (value : Numeral)
  /-- A string, `none` if it is no text. -/
  | string (text : Option String)
  deriving DecidableEq, Repr

namespace Token

/-! ## Numerals -/

/-- The value of a row of digits. -/
def digitsValue (digits : List Char) : Nat :=
  digits.foldl (fun n d => 10 * n + (d.toNat - '0'.toNat)) 0

/-- The longest row of digits at the front. -/
def takeDigits (s : List Char) : List Char × List Char :=
  (s.takeWhile Char.isDigit, s.dropWhile Char.isDigit)

/-- The part of a numeral before the point: a zero alone, or a digit that is none and any
digits. -/
def scanWhole (s : List Char) : Option (List Char × List Char) :=
  match takeDigits s with
  | ([], _) => none
  | ('0' :: _ :: _, _) => none
  | (ds, rest) => some (ds, rest)

/-- The point with at least one digit after it, or nothing. -/
def scanFraction : List Char → Option (List Char × List Char)
  | '.' :: s =>
      match takeDigits s with
      | ([], _) => none
      | (ds, rest) => some (ds, rest)
  | s => some ([], s)

/-- The sign of an exponent, whether it is a minus sign; none counts as plus. -/
def scanSign : List Char → Bool × List Char
  | '-' :: s => (true, s)
  | '+' :: s => (false, s)
  | s => (false, s)

/-- An exponent mark and sign with at least one digit after it, or nothing. -/
def scanExponent : List Char → Option (Option Int × List Char)
  | c :: s =>
      if c = 'e' ∨ c = 'E' then
        match takeDigits (scanSign s).2 with
        | ([], _) => none
        | (ds, rest) =>
            let n : Int := digitsValue ds
            some (some (if (scanSign s).1 then -n else n), rest)
      else some (none, c :: s)
  | [] => some (none, [])

/-- An unsigned numeral at the front. -/
def scanUnsigned (negative : Bool) (s : List Char) : Option (Numeral × List Char) := do
  let (whole, s) ← scanWhole s
  let (fraction, s) ← scanFraction s
  let (exponent, s) ← scanExponent s
  return (⟨negative, digitsValue (whole ++ fraction), fraction.length, exponent⟩, s)

/-- A numeral at the front, with its sign. -/
def scanNumeral : List Char → Option (Numeral × List Char)
  | '-' :: s => scanUnsigned true s
  | s => scanUnsigned false s

/-! ## Strings -/

/-- The value of a hexadecimal digit. -/
def hexValue? (c : Char) : Option Nat :=
  if c.isDigit then some (c.toNat - '0'.toNat)
  else if 'a' ≤ c ∧ c ≤ 'f' then some (c.toNat - 'a'.toNat + 10)
  else if 'A' ≤ c ∧ c ≤ 'F' then some (c.toNat - 'A'.toNat + 10)
  else none

/-- The code unit that four hexadecimal digits stand for. -/
def codeUnit? (a b c d : Char) : Option Nat := do
  return (((← hexValue? a) * 16 + (← hexValue? b)) * 16 + (← hexValue? c)) * 16 + (← hexValue? d)

/-- The character of a one-letter escape. -/
def escaped? (c : Char) : Option Char :=
  if c = '"' then some '"'
  else if c = '\\' then some '\\'
  else if c = '/' then some '/'
  else if c = 'b' then some '\x08'
  else if c = 'f' then some '\x0c'
  else if c = 'n' then some '\n'
  else if c = 'r' then some '\r'
  else if c = 't' then some '\t'
  else none

/-- What has been read of a string so far. -/
structure Reading where
  /-- The characters, last first. -/
  done : List Char
  /-- A first surrogate that waits for its second. -/
  pending : Option Nat
  /-- Whether all surrogates so far were paired. -/
  paired : Bool

namespace Reading

/-- Nothing read yet. -/
def start : Reading := ⟨[], none, true⟩

/-- A character follows; a waiting surrogate stays alone. -/
def push (r : Reading) (c : Char) : Reading :=
  ⟨c :: r.done, none, r.paired && r.pending.isNone⟩

/-- An escaped code unit follows: a character of its own or half of a pair. -/
def pushUnit (r : Reading) (u : Nat) : Reading :=
  if 0xd800 ≤ u ∧ u < 0xdc00 then ⟨r.done, some u, r.paired && r.pending.isNone⟩
  else if 0xdc00 ≤ u ∧ u < 0xe000 then
    match r.pending with
    | some h =>
        ⟨Char.ofNat (0x10000 + (h - 0xd800) * 0x400 + (u - 0xdc00)) :: r.done, none, r.paired⟩
    | none => ⟨r.done, none, false⟩
  else r.push (Char.ofNat u)

/-- The text read, if it is one. -/
def text? (r : Reading) : Option String :=
  if r.paired && r.pending.isNone then some (String.ofList r.done.reverse) else none

end Reading

/-- The rest of a string after its opening quote. -/
def scanString (r : Reading) : List Char → Option (Option String × List Char)
  | [] => none
  | '"' :: s => some (r.text?, s)
  | '\\' :: 'u' :: a :: b :: c :: d :: s =>
      match codeUnit? a b c d with
      | some u => scanString (r.pushUnit u) s
      | none => none
  | '\\' :: c :: s =>
      match escaped? c with
      | some e => scanString (r.push e) s
      | none => none
  | c :: s => if c.toNat < 0x20 ∨ c = '\\' then none else scanString (r.push c) s

/-! ## Each scan leaves less behind -/

/-- What follows a row of digits is no longer than the whole. -/
theorem length_takeDigits (s : List Char) : (takeDigits s).2.length ≤ s.length :=
  (List.dropWhile_suffix _).length_le

/-- A whole part takes at least one character. -/
theorem length_scanWhole {s rest ds : List Char} (h : scanWhole s = some (ds, rest)) :
    rest.length < s.length := by
  have split : s.takeWhile Char.isDigit ++ s.dropWhile Char.isDigit = s :=
    List.takeWhile_append_dropWhile
  have sizes := congrArg List.length split
  rw [List.length_append] at sizes
  unfold scanWhole takeDigits at h
  split at h
  · cases h
  · cases h
  · rename_i ds' rest' hne _ heq
    simp only [Prod.mk.injEq] at heq
    simp only [Option.some.injEq, Prod.mk.injEq] at h
    obtain ⟨rfl, rfl⟩ := h
    obtain ⟨h1, h2⟩ := heq
    have : 0 < ds'.length := by
      cases ds' with
      | nil => exact absurd rfl hne
      | cons => simp
    rw [h1, h2] at sizes
    omega

/-- What follows a fraction is no longer than the whole. -/
theorem length_scanFraction {s rest ds : List Char} (h : scanFraction s = some (ds, rest)) :
    rest.length ≤ s.length := by
  unfold scanFraction at h
  split at h
  · rename_i s'
    split at h
    · cases h
    · rename_i ds' rest' _ heq
      simp only [Option.some.injEq, Prod.mk.injEq] at h
      have := length_takeDigits s'
      rw [heq] at this
      rw [← h.2, List.length_cons]
      exact Nat.le_succ_of_le this
  · simp only [Option.some.injEq, Prod.mk.injEq] at h
    exact Nat.le_of_eq (congrArg List.length h.2.symm)

/-- What follows a sign is no longer than the whole. -/
theorem length_scanSign (s : List Char) : (scanSign s).2.length ≤ s.length := by
  unfold scanSign
  split
  · exact Nat.le_succ _
  · exact Nat.le_succ _
  · exact Nat.le_refl _

/-- What follows an exponent is no longer than the whole. -/
theorem length_scanExponent {s rest : List Char} {e : Option Int}
    (h : scanExponent s = some (e, rest)) : rest.length ≤ s.length := by
  unfold scanExponent at h
  split at h
  · rename_i c s'
    split at h
    · split at h
      · cases h
      · rename_i ds' rest' _ heq
        simp only [Option.some.injEq, Prod.mk.injEq] at h
        have hle := length_takeDigits (scanSign s').2
        rw [heq, h.2] at hle
        exact Nat.le_succ_of_le (Nat.le_trans hle (length_scanSign s'))
    · simp only [Option.some.injEq, Prod.mk.injEq] at h
      exact Nat.le_of_eq (congrArg List.length h.2.symm)
  · simp only [Option.some.injEq, Prod.mk.injEq] at h
    exact Nat.le_of_eq (congrArg List.length h.2.symm)

/-- An unsigned numeral takes at least one character. -/
theorem length_scanUnsigned {negative : Bool} {s rest : List Char} {n : Numeral}
    (h : scanUnsigned negative s = some (n, rest)) : rest.length < s.length := by
  unfold scanUnsigned at h
  cases hw : scanWhole s with
  | none => rw [hw] at h; cases h
  | some w =>
    cases hf : scanFraction w.2 with
    | none => rw [hw] at h; simp [hf] at h
    | some f =>
      cases he : scanExponent f.2 with
      | none => rw [hw] at h; simp [hf, he] at h
      | some e =>
        rw [hw] at h
        simp [hf, he] at h
        have h1 := length_scanWhole hw
        have h2 := length_scanFraction hf
        have h3 := length_scanExponent he
        rw [← h.2]
        omega

/-- A numeral takes at least one character. -/
theorem length_scanNumeral {s rest : List Char} {n : Numeral}
    (h : scanNumeral s = some (n, rest)) : rest.length < s.length := by
  unfold scanNumeral at h
  split at h
  · exact Nat.lt_succ_of_lt (length_scanUnsigned h)
  · exact length_scanUnsigned h

/-- A string takes at least its closing quote. -/
theorem length_scanString (s : List Char) : ∀ (r : Reading) {t : Option String} {rest : List Char},
    scanString r s = some (t, rest) → rest.length < s.length := by
  intro r
  fun_induction scanString r s with
  | case1 => intro t rest h; cases h
  | case2 r s => intro t rest h; cases h; simp
  | case3 r a b c d s u _ ih => intro t rest h; have := ih h; simp; omega
  | case4 => intro t rest h; cases h
  | case5 r c s _ e _ ih => intro t rest h; have := ih h; simp; omega
  | case6 => intro t rest h; cases h
  | case7 => intro t rest h; cases h
  | case8 r c s _ _ _ _ ih => intro t rest h; have := ih h; simp; omega

/-! ## Tokens -/

/-- The four blanks that may stand between tokens. -/
def isBlank (c : Char) : Bool := c == ' ' || c == '\t' || c == '\n' || c == '\r'

/-- The token of a single character. -/
def ofChar? (c : Char) : Option Token :=
  if c = '[' then some .openBracket
  else if c = ']' then some .closeBracket
  else if c = '\x7b' then some .openBrace
  else if c = '\x7d' then some .closeBrace
  else if c = ':' then some .colon
  else if c = ',' then some .comma
  else none

/-- The token of a keyword at the front. -/
def scanKeyword : List Char → Option (Token × List Char)
  | 'n' :: 'u' :: 'l' :: 'l' :: s => some (.null, s)
  | 't' :: 'r' :: 'u' :: 'e' :: s => some (.bool true, s)
  | 'f' :: 'a' :: 'l' :: 's' :: 'e' :: s => some (.bool false, s)
  | _ => none

/-- A keyword takes at least one character. -/
theorem length_scanKeyword {s rest : List Char} {t : Token} (h : scanKeyword s = some (t, rest)) :
    rest.length < s.length := by
  unfold scanKeyword at h
  split at h <;> cases h <;> simp <;> omega

/-- One token at the front of a text that begins with no blank. -/
def scan : List Char → Option (Token × List Char)
  | [] => none
  | '"' :: s => (scanString .start s).map fun p => (.string p.1, p.2)
  | c :: s =>
      match ofChar? c with
      | some t => some (t, s)
      | none =>
          match scanKeyword (c :: s) with
          | some p => some p
          | none => (scanNumeral (c :: s)).map fun p => (.number p.1, p.2)

/-- A token takes at least one character. -/
theorem length_scan {s rest : List Char} {t : Token} (h : scan s = some (t, rest)) :
    rest.length < s.length := by
  unfold scan at h
  split at h
  · cases h
  · rename_i s'
    obtain ⟨p, hp, he⟩ := Option.map_eq_some_iff.mp h
    cases he
    exact Nat.lt_succ_of_lt (length_scanString s' _ (by rw [hp]))
  · rename_i c s' _
    split at h
    · cases h; simp
    · split at h
      · rename_i p hp
        cases h
        exact length_scanKeyword hp
      · obtain ⟨p, hp, he⟩ := Option.map_eq_some_iff.mp h
        cases he
        exact length_scanNumeral (n := p.1) (by rw [hp])

/-- All tokens of a text, `none` if some piece of it is no token. -/
def ofChars? : List Char → Option (List Token)
  | [] => some []
  | c :: s =>
      if isBlank c then ofChars? s
      else
        match h : scan (c :: s) with
        | none => none
        | some (t, rest) =>
            have := length_scan h
            (ofChars? rest).map (t :: ·)
termination_by s => s.length
decreasing_by
  · exact Nat.lt_succ_self s.length
  · assumption

end Token

end FlatModel.Json
