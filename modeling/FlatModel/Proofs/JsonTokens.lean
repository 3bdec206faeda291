import Mathlib.Tactic.SplitIfs
import FlatModel.Json.Printer
import FlatModel.Json.Token

/-!
# Reading the pieces of a printed JSON text

Every piece that the printer writes is read back whole, and the scan stops where the piece ends.

* `Decimal.Numeral.digitsValue_digits` — the digits of a numeral are those of its coefficient.
* `Json.scanNumeral_chars` — a numeral is read back, whatever follows that cannot continue it.
* `Json.scan_quote` — text in quotes is read back, whatever follows.
* `Json.ofChars?_mark`, `Json.ofChars?_quote`, `Json.ofChars?_boolChars`, `Json.ofChars?_numeral` —
  the tokens of a text that begins with such a piece.
-/

namespace FlatModel

/-! ## The digits of a numeral -/

/-- Only zero is written with a leading zero. -/
theorem toDigits_head (k : Nat) : (Nat.toDigits 10 k).length = 1 ∨
    (Nat.toDigits 10 k).head? ≠ some '0' := by
  induction k using Nat.strongRecOn with
  | ind k ih =>
      by_cases hk : k < 10
      · left
        rw [Nat.toDigits_of_lt_base hk]
        rfl
      · right
        have hk' : 10 ≤ k := Nat.le_of_not_lt hk
        rw [Nat.toDigits_of_base_le (by decide) hk', List.head?_append,
          Option.or_of_isSome (by simp)]
        by_cases hsmall : k / 10 < 10
        · have hdigit : ∀ d < 10, 0 < d → Nat.digitChar d ≠ '0' := by decide
          rw [Nat.toDigits_of_lt_base hsmall]
          simpa using hdigit (k / 10) hsmall (by omega)
        · rcases ih (k / 10) (by omega) with hlen | hhead
          · have hle := (Nat.length_toDigits_le_iff (n := k / 10) (k := 1) (by decide)
              (by decide)).mp (Nat.le_of_eq hlen)
            omega
          · exact hhead

namespace Decimal.Numeral

variable (n : Numeral)

/-- The digits of a numeral are digits. -/
theorem isDigit_of_mem_digits {c : Char} (h : c ∈ n.digits) : c.isDigit = true := by
  rcases List.mem_append.mp h with h | h
  · rw [(List.mem_replicate.mp h).2]
    rfl
  · exact Nat.isDigit_of_mem_toDigits (by decide) (by decide) h

/-- At least one digit stands before the point. -/
theorem places_lt_length_digits : n.places < n.digits.length := by
  rw [digits, List.length_append, List.length_replicate]
  omega

/-- The digits are those of the coefficient. -/
theorem digitsValue_digits : Json.Token.digitsValue n.digits = n.coefficient := by
  have hvalue : ∀ ds, Json.Token.digitsValue ds = Nat.ofDigitChars 10 ds 0 := fun ds => rfl
  rw [hvalue, digits, Nat.ofDigitChars_append, Nat.ofDigitChars_replicate_zero, Nat.mul_zero,
    Nat.ofDigitChars_ten_toDigits]

/-- All digits are before or after the point. -/
theorem wholeDigits_append : n.wholeDigits ++ n.fractionDigits = n.digits :=
  List.take_append_drop _ _

/-- There are as many digits after the point as places. -/
theorem length_fractionDigits : n.fractionDigits.length = n.places := by
  have hlt := n.places_lt_length_digits
  rw [fractionDigits, List.length_drop]
  omega

theorem isDigit_of_mem_wholeDigits {c : Char} (h : c ∈ n.wholeDigits) : c.isDigit = true :=
  n.isDigit_of_mem_digits (List.mem_of_mem_take h)

theorem isDigit_of_mem_fractionDigits {c : Char} (h : c ∈ n.fractionDigits) : c.isDigit = true :=
  n.isDigit_of_mem_digits (List.mem_of_mem_drop h)

/-- There is a digit before the point. -/
theorem wholeDigits_ne_nil : n.wholeDigits ≠ [] := by
  have hlt := n.places_lt_length_digits
  intro h
  have hlen := congrArg List.length h
  rw [wholeDigits, List.length_take, List.length_nil] at hlen
  omega

/-- No zero stands before other digits. -/
theorem wholeDigits_head : n.wholeDigits.length = 1 ∨ n.wholeDigits.head? ≠ some '0' := by
  by_cases h : n.places < (Nat.toDigits 10 n.coefficient).length
  · -- no zeros are put in front
    have hdigits : n.digits = Nat.toDigits 10 n.coefficient := by
      have hzero : n.places + 1 - (Nat.toDigits 10 n.coefficient).length = 0 := by omega
      simp only [digits, hzero, List.replicate_zero, List.nil_append]
    rcases toDigits_head n.coefficient with hlen | hhead
    · left
      rw [wholeDigits, List.length_take, hdigits]
      omega
    · right
      rw [wholeDigits, hdigits, List.head?_take, if_neg (by omega)]
      exact hhead
  · -- just one digit is before the point
    left
    have hlen : n.digits.length = n.places + 1 := by
      rw [digits, List.length_append, List.length_replicate]
      omega
    rw [wholeDigits, List.length_take]
    omega

/-- The written digits: a point stands before those of the fraction. -/
theorem pointText_eq : n.pointText =
    if n.places = 0 then n.wholeDigits else n.wholeDigits ++ '.' :: n.fractionDigits := by
  unfold pointText wholeDigits fractionDigits
  dsimp only
  split
  · rename_i h
    rw [h, Nat.sub_zero, List.take_length]
  · rfl

/-- The written digits begin with a digit. -/
theorem exists_pointText_eq : ∃ c s, n.pointText = c :: s ∧ c.isDigit = true := by
  obtain ⟨c, s, hwhole⟩ := List.exists_cons_of_ne_nil n.wholeDigits_ne_nil
  have hc : c.isDigit = true := n.isDigit_of_mem_wholeDigits (hwhole ▸ List.mem_cons_self)
  rw [n.pointText_eq, hwhole]
  split
  · exact ⟨c, s, rfl, hc⟩
  · exact ⟨c, s ++ '.' :: n.fractionDigits, rfl, hc⟩

end Decimal.Numeral

namespace Json

open Decimal Token

/-! ## Numerals -/

/-- What follows a row of digits and does not continue it. -/
def NoDigit (rest : List Char) : Prop := ∀ c ∈ rest.head?, c.isDigit = false

/-- What follows a numeral and does not continue it. -/
def NoNumeral (rest : List Char) : Prop :=
  ∀ c ∈ rest.head?, c.isDigit = false ∧ c ≠ '.' ∧ c ≠ 'e' ∧ c ≠ 'E'

section numerals

variable {ds rest : List Char}

/-- A row of digits is taken whole. -/
theorem takeDigits_append (hds : ∀ c ∈ ds, c.isDigit = true) (hrest : NoDigit rest) :
    takeDigits (ds ++ rest) = (ds, rest) := by
  have hnone : rest.takeWhile Char.isDigit = [] ∧ rest.dropWhile Char.isDigit = rest := by
    cases rest with
    | nil => simp
    | cons c rest =>
        have hc : c.isDigit = false := hrest c rfl
        simp [hc]
  rw [takeDigits, List.takeWhile_append_of_pos hds, List.dropWhile_append_of_pos hds, hnone.1,
    hnone.2, List.append_nil]

/-- The digits before the point are taken whole. -/
theorem scanWhole_append (hds : ∀ c ∈ ds, c.isDigit = true) (hrest : NoDigit rest)
    (hne : ds ≠ []) (hlead : ds.length = 1 ∨ ds.head? ≠ some '0') :
    scanWhole (ds ++ rest) = some (ds, rest) := by
  unfold scanWhole
  rw [takeDigits_append hds hrest]
  split
  · rename_i heq
    cases heq
    exact absurd rfl hne
  · rename_i heq
    cases heq
    simp at hlead
  · rename_i heq
    cases heq
    rfl

/-- The digits after the point are taken whole. -/
theorem scanFraction_append (hds : ∀ c ∈ ds, c.isDigit = true) (hrest : NoDigit rest)
    (hne : ds ≠ []) : scanFraction ('.' :: (ds ++ rest)) = some (ds, rest) := by
  unfold scanFraction
  simp only [takeDigits_append hds hrest]

/-- Without a point there are no digits after it. -/
theorem scanFraction_of_ne (h : ∀ c ∈ rest.head?, c ≠ '.') : scanFraction rest = some ([], rest) := by
  unfold scanFraction
  split
  · exact absurd rfl (h '.' rfl)
  · rfl

/-- Digits have no sign in front. -/
theorem scanSign_digits (hds : ∀ c ∈ ds, c.isDigit = true) (hne : ds ≠ []) :
    scanSign (ds ++ rest) = (false, ds ++ rest) := by
  obtain ⟨d, ds, rfl⟩ := List.exists_cons_of_ne_nil hne
  have hd := hds d List.mem_cons_self
  unfold scanSign
  split
  · rename_i heq
    cases heq
    cases hd
  · rename_i heq
    cases heq
    cases hd
  · rfl

/-- An exponent is read back, marked with a plus sign or not. -/
theorem scanExponent_exponentText (plus : Bool) (e : Int) (hrest : NoDigit rest) :
    scanExponent (Numeral.exponentText plus (some e) ++ rest) = some (some e, rest) := by
  have hdigits : ∀ c ∈ Nat.toDigits 10 e.natAbs, c.isDigit = true := fun c hc =>
    Nat.isDigit_of_mem_toDigits (by decide) (by decide) hc
  have htake := takeDigits_append hdigits hrest
  have hvalue : digitsValue (Nat.toDigits 10 e.natAbs) = e.natAbs := Nat.ofDigitChars_ten_toDigits
  have hne : Nat.toDigits 10 e.natAbs ≠ [] := Nat.toDigits_ne_nil
  have hscan : ∀ (s : List Char) (minus : Bool),
      scanSign s = (minus, Nat.toDigits 10 e.natAbs ++ rest) →
      scanExponent ('e' :: s) =
        some (some (if minus then -(e.natAbs : Int) else e.natAbs), rest) := by
    intro s minus hsign
    rw [scanExponent, if_pos (.inl rfl), hsign]
    simp only [htake, hvalue]
  rcases Int.lt_or_le e 0 with he | he
  · have hchars : Numeral.exponentText plus (some e) ++ rest =
        'e' :: '-' :: (Nat.toDigits 10 e.natAbs ++ rest) := by
      simp [Numeral.exponentText, he]
    rw [hchars, hscan _ true rfl, if_pos rfl, Int.ofNat_natAbs_of_nonpos (by omega), Int.neg_neg]
  · have hnat : (e.natAbs : Int) = e := Int.natAbs_of_nonneg he
    cases plus with
    | true =>
        have hchars : Numeral.exponentText true (some e) ++ rest =
            'e' :: '+' :: (Nat.toDigits 10 e.natAbs ++ rest) := by
          simp [Numeral.exponentText, Int.not_lt.mpr he]
        rw [hchars, hscan _ false rfl, if_neg (by decide), hnat]
    | false =>
        have hchars : Numeral.exponentText false (some e) ++ rest =
            'e' :: (Nat.toDigits 10 e.natAbs ++ rest) := by
          simp [Numeral.exponentText, Int.not_lt.mpr he]
        rw [hchars, hscan _ false (scanSign_digits hdigits hne), if_neg (by decide), hnat]

/-- An absent exponent is read as such. -/
theorem scanExponent_of_noNumeral (hrest : NoNumeral rest) :
    scanExponent rest = some (none, rest) := by
  cases rest with
  | nil => rfl
  | cons c rest =>
      have hc := hrest c rfl
      rw [scanExponent, if_neg]
      rintro (rfl | rfl)
      · exact hc.2.2.1 rfl
      · exact hc.2.2.2 rfl

/-- The exponent of a numeral is read back. -/
theorem scanExponent_append (plus : Bool) (e : Option Int) (hrest : NoNumeral rest) :
    scanExponent (Numeral.exponentText plus e ++ rest) = some (e, rest) := by
  cases e with
  | none => exact scanExponent_of_noNumeral hrest
  | some e => exact scanExponent_exponentText plus e fun c hc => (hrest c hc).1

/-- Neither a digit nor a point follows the digits of a numeral. -/
theorem exponentText_head (plus : Bool) (e : Option Int) (hrest : NoNumeral rest) :
    ∀ c ∈ (Numeral.exponentText plus e ++ rest).head?, c.isDigit = false ∧ c ≠ '.' := by
  cases e with
  | none => exact fun c hc => ⟨(hrest c hc).1, (hrest c hc).2.1⟩
  | some e =>
      intro c hc
      have hc' : c = 'e' := by
        simpa [Numeral.exponentText, eq_comm] using hc
      subst hc'
      decide

/-- A numeral without its sign is read back. -/
theorem scanUnsigned_append (plus : Bool) (n : Numeral) (hrest : NoNumeral rest) :
    scanUnsigned n.negative (n.pointText ++ (Numeral.exponentText plus n.exponent ++ rest)) =
      some (n, rest) := by
  have hexponent := scanExponent_append plus n.exponent hrest
  have hhead := exponentText_head plus n.exponent hrest
  have hvalue : digitsValue (n.wholeDigits ++ n.fractionDigits) = n.coefficient := by
    rw [n.wholeDigits_append, n.digitsValue_digits]
  have hlength := n.length_fractionDigits
  have hwhole := fun (s : List Char) (hs : NoDigit s) => scanWhole_append
    (fun _ => n.isDigit_of_mem_wholeDigits) hs n.wholeDigits_ne_nil n.wholeDigits_head
  unfold scanUnsigned
  rw [n.pointText_eq]
  by_cases hplaces : n.places = 0
  · have hfraction : n.fractionDigits = [] := by
      rw [← List.length_eq_zero_iff, hlength, hplaces]
    rw [if_pos hplaces, hwhole _ fun c hc => (hhead c hc).1]
    rw [hfraction, hplaces] at hlength
    rw [hfraction, List.append_nil] at hvalue
    simp [scanFraction_of_ne fun c hc => (hhead c hc).2, hexponent, hvalue, ← hplaces]
  · have hfraction : n.fractionDigits ≠ [] := by
      rw [← List.length_pos_iff, hlength]
      omega
    rw [if_neg hplaces, List.append_assoc, List.cons_append,
      hwhole _ (by rintro c (rfl | _); decide)]
    have hscan := scanFraction_append (fun _ => n.isDigit_of_mem_fractionDigits)
      (fun c hc => (hhead c hc).1) hfraction
    simp [hscan, hexponent, hvalue, hlength]

/-- **A printed numeral is read back.** -/
theorem scanNumeral_chars (n : Numeral) (hrest : NoNumeral rest) :
    scanNumeral (n.chars true ++ rest) = some (n, rest) := by
  have hunsigned := scanUnsigned_append true n hrest
  rw [Numeral.chars, List.append_assoc, List.append_assoc, Numeral.signText]
  rcases hneg : n.negative with _ | _
  · obtain ⟨c, s, hpoint, hc⟩ := n.exists_pointText_eq
    rw [hneg, hpoint] at hunsigned
    rw [if_neg (by decide), List.nil_append, hpoint, scanNumeral]
    · exact hunsigned
    · rintro s' h
      cases h
      cases hc
  · rw [hneg] at hunsigned
    exact hunsigned

/-- A printed numeral begins with a digit or a minus sign. -/
theorem exists_chars_eq (n : Numeral) :
    ∃ c s, n.chars true = c :: s ∧ (c = '-' ∨ c.isDigit = true) := by
  obtain ⟨c, s, hpoint, hc⟩ := n.exists_pointText_eq
  rw [Numeral.chars, Numeral.signText, hpoint]
  rcases n.negative with _ | _
  · exact ⟨c, s ++ Numeral.exponentText true n.exponent, rfl, .inr hc⟩
  · exact ⟨'-', c :: s ++ Numeral.exponentText true n.exponent, rfl, .inl rfl⟩

end numerals

/-! ## Strings -/

/-- The two digits of an escaped control character are read back. -/
theorem codeUnit?_hexDigits :
    ∀ k < 0x20, codeUnit? '0' '0' (hexDigit (k / 16)) (hexDigit k) = some k := by
  decide

/-- An escape of a code unit below the surrogates is its character. -/
theorem pushUnit_of_lt (r : Reading) {u : Nat} (h : u < 0xd800) :
    r.pushUnit u = r.push (Char.ofNat u) := by
  unfold Reading.pushUnit
  rw [if_neg (by omega), if_neg (by omega)]

/-- An escaped character is read back. -/
theorem scanString_escapeChar (done : List Char) (c : Char) (rest : List Char) :
    scanString ⟨done, none, true⟩ (escapeChar c ++ rest) =
      scanString ⟨c :: done, none, true⟩ rest := by
  unfold escapeChar
  split_ifs with hquote hslash hback hfeed hnew hret htab hcontrol
  · subst hquote; rfl
  · subst hslash; rfl
  · subst hback; rfl
  · subst hfeed; rfl
  · subst hnew; rfl
  · subst hret; rfl
  · subst htab; rfl
  · have hlt : c.toNat < 0xd800 := by omega
    simp only [List.cons_append, List.nil_append, scanString, codeUnit?_hexDigits _ hcontrol,
      pushUnit_of_lt _ hlt, Char.ofNat_toNat]
    rfl
  · -- the character stands for itself
    rw [List.singleton_append, scanString.eq_5, if_neg]
    · rfl
    · rintro (h | h)
      · exact hcontrol h
      · exact hslash h
    · exact hquote
    · intros; exact hslash (by assumption)
    · intros; exact hslash (by assumption)

/-- Text in quotes is read back up to its closing quote. -/
theorem scanString_escaped (rest : List Char) : ∀ (text done : List Char),
    scanString ⟨done, none, true⟩ (text.flatMap escapeChar ++ '"' :: rest) =
      some (some (String.ofList (done.reverse ++ text)), rest)
  | [], done => by
      rw [List.flatMap_nil, List.nil_append, scanString, List.append_nil]
      rfl
  | c :: text, done => by
      have ih := scanString_escaped rest text (c :: done)
      rw [List.flatMap_cons, List.append_assoc, scanString_escapeChar, ih, List.reverse_cons,
        List.append_assoc]
      rfl

/-- **Printed text is read back.** -/
theorem scan_quote (text : String) (rest : List Char) :
    scan (quote text ++ rest) = some (.string (some text), rest) := by
  have hscan := scanString_escaped rest text.toList []
  rw [List.reverse_nil, List.nil_append, String.ofList_toList] at hscan
  rw [quote, List.cons_append, List.append_assoc, List.singleton_append, scan]
  simp only [Reading.start, hscan, Option.map_some]

/-! ## Tokens -/

section tokens

variable {rest : List Char}

/-- The tokens of a text that begins with a token. -/
theorem ofChars?_of_scan {c : Char} {s : List Char} {t : Token} (hc : isBlank c = false)
    (h : scan (c :: s) = some (t, rest)) :
    ofChars? (c :: s) = (ofChars? rest).map (t :: ·) := by
  rw [ofChars?, if_neg (by rw [hc]; decide)]
  split
  · rename_i hnone
    rw [hnone] at h
    cases h
  · rename_i t' rest' hsome
    rw [hsome] at h
    cases h
    rfl

/-- A mark is neither a blank nor a quote. -/
theorem isBlank_of_ofChar? {c : Char} {t : Token} (h : ofChar? c = some t) :
    isBlank c = false ∧ c ≠ '"' := by
  unfold ofChar? at h
  split_ifs at h with hopen hclose hbrace hend hcolon hcomma
  · subst hopen; decide
  · subst hclose; decide
  · subst hbrace; decide
  · subst hend; decide
  · subst hcolon; decide
  · subst hcomma; decide

/-- A mark is a token. -/
theorem ofChars?_mark {c : Char} {t : Token} (h : ofChar? c = some t) :
    ofChars? (c :: rest) = (ofChars? rest).map (t :: ·) := by
  obtain ⟨hblank, hquote⟩ := isBlank_of_ofChar? h
  refine ofChars?_of_scan hblank ?_
  rw [scan]
  · simp only [h]
  · exact hquote

/-- A printed text is a token. -/
theorem ofChars?_quote (text : String) :
    ofChars? (quote text ++ rest) = (ofChars? rest).map (.string (some text) :: ·) :=
  ofChars?_of_scan rfl (scan_quote text rest)

/-- The keyword of nothing is a token. -/
theorem ofChars?_null :
    ofChars? ('n' :: 'u' :: 'l' :: 'l' :: rest) = (ofChars? rest).map (.null :: ·) :=
  ofChars?_of_scan rfl rfl

/-- A printed truth value is a token. -/
theorem ofChars?_boolChars (b : Bool) :
    ofChars? (boolChars b ++ rest) = (ofChars? rest).map (.bool b :: ·) := by
  cases b
  · exact ofChars?_of_scan rfl rfl
  · exact ofChars?_of_scan rfl rfl

/-- What a numeral begins with begins no other token and is no blank. -/
theorem scan_of_numeral_head {c : Char} (s : List Char) (hc : c = '-' ∨ c.isDigit = true) :
    isBlank c = false ∧
      scan (c :: s) = (scanNumeral (c :: s)).map fun p => (.number p.1, p.2) := by
  have hne : ∀ d : Char, d ≠ '-' → d.isDigit = false → c ≠ d := by
    rintro d hminus hdigit rfl
    rcases hc with rfl | hc
    · exact hminus rfl
    · rw [hdigit] at hc
      cases hc
  have hchar : ofChar? c = none := by
    unfold ofChar?
    rw [if_neg (hne _ (by decide) rfl), if_neg (hne _ (by decide) rfl),
      if_neg (hne _ (by decide) rfl), if_neg (hne _ (by decide) rfl),
      if_neg (hne _ (by decide) rfl), if_neg (hne _ (by decide) rfl)]
  have hkeyword : scanKeyword (c :: s) = none := by
    unfold scanKeyword
    split
    · rename_i heq
      cases heq
      exact absurd rfl (hne 'n' (by decide) rfl)
    · rename_i heq
      cases heq
      exact absurd rfl (hne 't' (by decide) rfl)
    · rename_i heq
      cases heq
      exact absurd rfl (hne 'f' (by decide) rfl)
    · rfl
  constructor
  · simp [isBlank, hne ' ' (by decide) rfl, hne '\t' (by decide) rfl, hne '\n' (by decide) rfl,
      hne '\r' (by decide) rfl]
  · rw [scan]
    · simp only [hchar, hkeyword]
    · exact hne '"' (by decide) rfl

/-- A printed numeral is a token. -/
theorem ofChars?_numeral (n : Numeral) (hrest : NoNumeral rest) :
    ofChars? (n.chars true ++ rest) = (ofChars? rest).map (.number n :: ·) := by
  have hnumeral := scanNumeral_chars n hrest
  obtain ⟨c, s, hchars, hc⟩ := exists_chars_eq n
  rw [hchars, List.cons_append] at hnumeral ⊢
  obtain ⟨hblank, hscan⟩ := scan_of_numeral_head (s ++ rest) hc
  refine ofChars?_of_scan hblank ?_
  rw [hscan, hnumeral, Option.map_some]

end tokens

end Json

end FlatModel
