import FlatModel.Emission.Assembly

/-!
# The text of a generated module

The document put into lines.  Nothing is decided here: every part of the document has its place,
and lists become lines.  The text does not end in a line break.
-/

namespace FlatModel.Emission

/-- A line break and a line, indented by so many blanks. -/
def onLine (indent : Nat) (text : String) : String :=
  "\n" ++ String.ofList (List.replicate indent ' ') ++ text

/-- The default values of a vector, those that are missing as remarks. -/
def defaultsSource (v : VectorDoc) : String :=
  onLine 8 ("self." ++ v.kind.attr ++ "0 = \x7b") ++
    String.join (v.defaults.map fun d => onLine 12 (d.key ++ ": " ++ d.value ++ ",")) ++
    String.join (v.missing.map fun n => onLine 12 ("# " ++ n ++ ": no default value")) ++
    onLine 8 "\x7d"

/-- A declaration. -/
def declarationSource (d : Declaration) : String :=
  onLine 8 (d.targets ++ " = " ++ d.constructor ++ "('" ++ d.display ++ "')")

/-- A vector with its heading, declaration and default values. -/
def vectorSource (v : VectorDoc) : String :=
  "\n" ++ onLine 8 ("# " ++ v.kind.label) ++
    (v.declaration.map declarationSource).getD "" ++
    onLine 8
      ("self." ++ v.kind.attr ++ " = sympy.Matrix([" ++ ", ".intercalate v.members ++ "])") ++
    (if v.kind.hasDefaults then defaultsSource v else "")

/-- A model class. -/
def modelSource (m : ModelDoc) : String :=
  "\n\n" ++ onLine 0 ("class " ++ m.name ++ "(OdeModel):") ++
    "\n" ++ onLine 4 "def __init__(self):" ++
    "\n" ++ onLine 8 ("super(" ++ m.name ++ ", self).__init__()") ++
    onLine 8 ("self." ++ timeSymbol ++ " = sympy.symbols('" ++ timeSymbol ++ "')") ++
    String.join (m.vectors.map vectorSource) ++
    "\n" ++ onLine 8 "# equations" ++
    onLine 8 "self.eqs = [" ++
    String.join (m.equations.map fun e => onLine 12 (e ++ ",")) ++
    onLine 8 "]" ++
    "\n" ++ onLine 8 "self.reduce()"

/-- The whole module. -/
def unitSource (u : UnitDoc) : String :=
  "# " ++ banner ++ onLine 0 ("# source digest: " ++ u.sourceDigest) ++
    "\n" ++ String.join (imports.map (onLine 0)) ++ String.join (u.models.map modelSource)

/-- The text of the module of a unit that has a class of the given name. -/
def generate (u : SourceUnit) (model : String) : Except EmissionError String :=
  if u.classes.contains model then do
    let built ← build u
    return unitSource built.1
  else .error (.unknownModel model)

end FlatModel.Emission
