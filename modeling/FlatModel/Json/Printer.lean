import FlatModel.Json.Value

/-!
# Printing JSON

`Json.compact` writes a value without any space, `Json.pretty` on indented lines.  Both print a
sequence of the same tokens, so what they write differs in blanks only.
-/

namespace FlatModel.Json

open Decimal

/-! ## Strings -/

/-- One hexadecimal digit in lower case. -/
def hexDigit (n : Nat) : Char := Nat.digitChar (n % 16)

/-- A character inside quotes.  Quote, backslash and the control characters are escaped, all
others stand for themselves. -/
def escapeChar (c : Char) : List Char :=
  if c = '"' then ['\\', '"']
  else if c = '\\' then ['\\', '\\']
  else if c = '\x08' then ['\\', 'b']
  else if c = '\x0c' then ['\\', 'f']
  else if c = '\n' then ['\\', 'n']
  else if c = '\r' then ['\\', 'r']
  else if c = '\t' then ['\\', 't']
  else if c.toNat < 0x20 then
    ['\\', 'u', '0', '0', hexDigit (c.toNat / 16), hexDigit c.toNat]
  else [c]

/-- Text in quotes. -/
def quote (s : String) : List Char := '"' :: (s.toList.flatMap escapeChar ++ ['"'])

/-- A string value in quotes.  A string that is no text is written as the empty one. -/
def stringChars (s : Option String) : List Char := quote (s.getD "")

/-! ## Values -/

/-- The keyword of a truth value. -/
def boolChars (b : Bool) : List Char :=
  if b then ['t', 'r', 'u', 'e'] else ['f', 'a', 'l', 's', 'e']

mutual

/-- The characters of a value without blanks. -/
def chars : Json → List Char
  | .null => ['n', 'u', 'l', 'l']
  | .bool b => boolChars b
  | .number n => n.chars true
  | .string s => stringChars s
  | .array [] => ['[', ']']
  | .array (item :: rest) => '[' :: (item.chars ++ itemsChars rest)
  | .object [] => ['\x7b', '\x7d']
  | .object ((name, value) :: rest) =>
      '\x7b' :: (stringChars name ++ ':' :: (value.chars ++ membersChars rest))

/-- The items after the first with the closing bracket. -/
def itemsChars : List Json → List Char
  | [] => [']']
  | item :: rest => ',' :: (item.chars ++ itemsChars rest)

/-- The members after the first with the closing brace. -/
def membersChars : List (Option String × Json) → List Char
  | [] => ['\x7d']
  | (name, value) :: rest =>
      ',' :: (stringChars name ++ ':' :: (value.chars ++ membersChars rest))

end

/-- A value as text without blanks. -/
def compact (j : Json) : String := String.ofList j.chars

/-! ## Indented text -/

/-- A new line, indented two spaces for each enclosing container. -/
def newline (depth : Nat) : List Char := '\n' :: List.replicate (2 * depth) ' '

mutual

/-- The characters of a value with one item or member on a line. -/
def prettyChars (depth : Nat) : Json → List Char
  | .null => ['n', 'u', 'l', 'l']
  | .bool b => boolChars b
  | .number n => n.chars true
  | .string s => stringChars s
  | .array [] => ['[', ']']
  | .array (item :: rest) =>
      '[' :: (newline (depth + 1) ++ item.prettyChars (depth + 1) ++ prettyItems depth rest)
  | .object [] => ['\x7b', '\x7d']
  | .object ((name, value) :: rest) =>
      '\x7b' :: (newline (depth + 1) ++ stringChars name ++ ':' :: ' ' ::
        (value.prettyChars (depth + 1) ++ prettyMembers depth rest))

/-- The items after the first, each on its line, and the closing bracket. -/
def prettyItems (depth : Nat) : List Json → List Char
  | [] => newline depth ++ [']']
  | item :: rest =>
      ',' :: (newline (depth + 1) ++ item.prettyChars (depth + 1) ++ prettyItems depth rest)

/-- The members after the first, each on its line, and the closing brace. -/
def prettyMembers (depth : Nat) : List (Option String × Json) → List Char
  | [] => newline depth ++ ['\x7d']
  | (name, value) :: rest =>
      ',' :: (newline (depth + 1) ++ stringChars name ++ ':' :: ' ' ::
        (value.prettyChars (depth + 1) ++ prettyMembers depth rest))

end

/-- A value as indented text. -/
def pretty (j : Json) : String := String.ofList (j.prettyChars 0)

end FlatModel.Json
