import FlatModel.Emission.Document
import FlatModel.Json.Printer

/-!
# Documents as JSON
-/

namespace FlatModel.Emission

/-- A list of texts. -/
def textsToJson (texts : List String) : Json := .array (texts.map Json.str)

/-- A declaration as a record. -/
def Declaration.toJson (d : Declaration) : Json :=
  .record [("targets", .str d.targets), ("constructor", .str d.constructor),
    ("display", .str d.display)]

/-- A default value as a record. -/
def DefaultEntry.toJson (d : DefaultEntry) : Json :=
  .record [("key", .str d.key), ("value", .str d.value)]

/-- A vector as a record; a declaration that is absent is `null`. -/
def VectorDoc.toJson (v : VectorDoc) : Json :=
  .record [("kind", .str v.kind.label), ("label", .str v.kind.label), ("attr", .str v.kind.attr),
    ("declaration", (v.declaration.map Declaration.toJson).getD .null),
    ("members", textsToJson v.members), ("has_defaults", .bool v.kind.hasDefaults),
    ("defaults", .array (v.defaults.map DefaultEntry.toJson)), ("missing", textsToJson v.missing)]

/-- A model as a record. -/
def ModelDoc.toJson (m : ModelDoc) : Json :=
  .record [("name", .str m.name), ("time", .str timeSymbol),
    ("groups", .array (m.vectors.map VectorDoc.toJson)), ("equations", textsToJson m.equations),
    ("missing_defaults", textsToJson m.missingDefaults)]

/-- A module as a record. -/
def UnitDoc.toJson (u : UnitDoc) : Json :=
  .record [("banner", .str banner), ("source_digest", .str u.sourceDigest),
    ("imports", textsToJson imports), ("models", .array (u.models.map ModelDoc.toJson))]

end FlatModel.Emission
