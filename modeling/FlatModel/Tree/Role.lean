/-!
# Roles of a symbol

A symbol may play any of five roles in its class, several at once.  A symbol without a role is a
plain variable.
-/

namespace FlatModel

/-- What a symbol is in its class. -/
inductive Role where
  /-- A quantity with a differential equation. -/
  | state
  /-- A quantity given from outside. -/
  | input
  /-- A quantity handed to the outside. -/
  | output
  /-- A fixed number. -/
  | constant
  /-- A number fixed for one run. -/
  | parameter
  deriving DecidableEq, Repr, Inhabited

namespace Role

/-- All roles in their order. -/
def all : List Role := [.state, .input, .output, .constant, .parameter]

/-- The keyword of a role. -/
def name : Role → String
  | .state => "state"
  | .input => "input"
  | .output => "output"
  | .constant => "constant"
  | .parameter => "parameter"

/-- The role with a keyword. -/
def ofName? (s : String) : Option Role := all.find? fun r => r.name == s

end Role

/-- A set of roles. -/
structure Roles where
  /-- Whether the state role is in the set. -/
  state : Bool := false
  /-- Whether the input role is in the set. -/
  input : Bool := false
  /-- Whether the output role is in the set. -/
  output : Bool := false
  /-- Whether the constant role is in the set. -/
  constant : Bool := false
  /-- Whether the parameter role is in the set. -/
  parameter : Bool := false
  deriving DecidableEq, Repr, Inhabited

namespace Roles

/-- The set without roles. -/
def empty : Roles := {}

/-- Whether a role is in the set. -/
def contains (s : Roles) : Role → Bool
  | .state => s.state
  | .input => s.input
  | .output => s.output
  | .constant => s.constant
  | .parameter => s.parameter

/-- The set with one more role. -/
def insert (s : Roles) : Role → Roles
  | .state => { s with state := true }
  | .input => { s with input := true }
  | .output => { s with output := true }
  | .constant => { s with constant := true }
  | .parameter => { s with parameter := true }

/-- The roles of the set in their order. -/
def toList (s : Roles) : List Role := Role.all.filter s.contains

/-- The set of the listed roles. -/
def ofList (roles : List Role) : Roles := roles.foldl insert empty

/-- Whether the set has no role. -/
def isEmpty (s : Roles) : Bool := s.toList.isEmpty

/-- Insertion adds exactly the one role. -/
@[simp] theorem contains_insert (s : Roles) (r q : Role) :
    (s.insert r).contains q = (s.contains q || decide (q = r)) := by
  cases r <;> cases q <;> simp [contains, insert]

/-- A role is listed iff it is in the set. -/
@[simp] theorem mem_toList (s : Roles) (r : Role) : r ∈ s.toList ↔ s.contains r = true := by
  cases r <;> simp [toList, Role.all]

end Roles

end FlatModel
