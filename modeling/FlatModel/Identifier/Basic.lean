import FlatModel.Identifier.Reserved

/-!
# Identifiers for dotted names

A symbol keeps the dotted path it had before flattening.  `sanitize` makes an identifier of it:
every dot becomes two underscores, and as long as the result is a reserved name an underscore is
appended.  `display` turns pairs of underscores back into dots.
-/

namespace FlatModel.Identifier

/-- What stands for one character of a dotted name. -/
def flattenChar (c : Char) : List Char := if c = '.' then ['_', '_'] else [c]

/-- The name with two underscores for every dot. -/
def flatten (name : String) : String := String.ofList (name.toList.flatMap flattenChar)

/-- Append underscores while the name is taken, at most `fuel` of them. -/
def avoid (taken : List String) : Nat → String → String
  | 0, ident => ident
  | fuel + 1, ident => if taken.contains ident then avoid taken fuel (ident.push '_') else ident

/-- Whether the name is reserved. -/
def isReserved (name : String) : Bool := reserved.contains name

/-- The identifier of a dotted name: its flat form with as few underscores appended as it takes to
leave the reserved names.  Of the flat forms with no, one, two, … underscores no two are equal, so
there is one that is not reserved among the first `reserved.length + 1`. -/
def sanitize (name : String) : String := avoid reserved reserved.length (flatten name)

/-- Replace pairs of underscores by dots, from the left. -/
def unflatten : List Char → List Char
  | '_' :: '_' :: rest => '.' :: unflatten rest
  | c :: rest => c :: unflatten rest
  | [] => []

/-- An identifier in the form shown to readers, with dots for pairs of underscores. -/
def display (ident : String) : String := String.ofList (unflatten ident.toList)

end FlatModel.Identifier
