import FlatModel.Md5
import FlatModel.Tree.Codec

/-!
# The digest of a unit

Two units that differ in the order in which their classes and symbols were added only have one
canonical form: classes by name, symbols by place of declaration and then by name.  The digest of
a unit is the digest of the text of its canonical form.
-/

namespace FlatModel

/-- The order of declaration, ties broken by name. -/
def Symbol.precedes (a b : Symbol) : Bool :=
  a.order < b.order || (a.order == b.order && a.name ≤ b.name)

/-- The class with its symbols in order of declaration. -/
def ClassDef.canonical (c : ClassDef) : ClassDef :=
  { c with symbols := c.symbols.sortedBy fun p q => p.2.precedes q.2 }

namespace SourceUnit

/-- The unit with its classes in order of their names and the symbols of each in order. -/
def canonical (u : SourceUnit) : SourceUnit :=
  { u with classes := (u.classes.sortedBy fun p q => p.1 ≤ q.1).mapValues ClassDef.canonical }

/-- The text that is digested. -/
def canonicalText (u : SourceUnit) : String := u.canonical.text

/-- The digest of a unit in hexadecimal. -/
def digest (u : SourceUnit) : String := Md5.hexDigest u.canonicalText.toUTF8

end SourceUnit

end FlatModel
