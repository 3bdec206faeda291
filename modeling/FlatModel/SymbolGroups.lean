import FlatModel.Tree.Basic

/-!
# Symbols by role

The symbols of a class sorted into groups.  A symbol stands in the group of every role it plays; a
symbol without a role is an algebraic variable, and so is an output that is no state, because
something has to determine it.  Each group is in order of declaration, the outputs among the
algebraic variables after the others.
-/

namespace FlatModel

/-- The symbols of a class by role. -/
structure SymbolGroups where
  /-- The states. -/
  states : List Symbol
  /-- The inputs. -/
  inputs : List Symbol
  /-- The outputs. -/
  outputs : List Symbol
  /-- The constants. -/
  constants : List Symbol
  /-- The parameters. -/
  parameters : List Symbol
  /-- The symbols without a role, then the outputs that are no states. -/
  algebraics : List Symbol

namespace SymbolGroups

/-- Symbols in order of declaration; those with equal places stay as they are. -/
def inOrder (symbols : List Symbol) : List Symbol := symbols.mergeSort fun a b => a.order ≤ b.order

/-- The groups of a list of symbols. -/
def ofList (symbols : List Symbol) : SymbolGroups :=
  let sorted := inOrder symbols
  let playing := fun (r : Role) => sorted.filter fun s => s.is r
  { states := playing .state
    inputs := playing .input
    outputs := playing .output
    constants := playing .constant
    parameters := playing .parameter
    algebraics := (sorted.filter fun s => s.roles.isEmpty) ++
      (playing .output).filter fun s => !s.is .state }

end SymbolGroups

/-- The groups of the symbols of a class. -/
def ClassDef.groups (c : ClassDef) : SymbolGroups := .ofList c.symbols.values

end FlatModel
