import FlatModel.Symbolic.Scalar

/-!
# Symbolic expressions

An expression over named quantities.  A symbol is any quantity, whether it varies with time is for
the caller to say.  `der` stands for the time derivative of its operand; to differentiation and to
`contains` it is an atom of its own.
-/

namespace FlatModel.Symbolic

/-- A symbolic expression with numbers of type `K`. -/
inductive Expr (K : Type) where
  /-- A number. -/
  | num (value : K)
  /-- A named quantity. -/
  | sym (name : String)
  /-- The time derivative of an expression. -/
  | der (operand : Expr K)
  /-- The opposite. -/
  | neg (operand : Expr K)
  /-- A sum. -/
  | add (left right : Expr K)
  /-- A difference. -/
  | sub (left right : Expr K)
  /-- A product. -/
  | mul (left right : Expr K)
  /-- A quotient. -/
  | div (left right : Expr K)
  /-- A power. -/
  | pow (base exponent : Expr K)
  /-- A function by name, applied to arguments. -/
  | call (name : String) (args : List (Expr K))
  deriving Inhabited

namespace Expr

variable {K : Type}

/-! ## Size -/

mutual

/-- The number of nodes. -/
def size : Expr K → Nat
  | .num _ => 1
  | .sym _ => 1
  | .der a => a.size + 1
  | .neg a => a.size + 1
  | .add a b => a.size + b.size + 1
  | .sub a b => a.size + b.size + 1
  | .mul a b => a.size + b.size + 1
  | .div a b => a.size + b.size + 1
  | .pow a b => a.size + b.size + 1
  | .call _ args => sizeAll args + 1

/-- The number of nodes of all expressions of a list. -/
def sizeAll : List (Expr K) → Nat
  | [] => 0
  | a :: rest => a.size + sizeAll rest

end

/-- Every expression has a node. -/
theorem size_pos (e : Expr K) : 0 < e.size := by
  cases e <;> simp only [size] <;> omega

/-! ## Equality -/

variable [Scalar K]

mutual

/-- Whether two expressions are built alike from equal numbers. -/
def beq : Expr K → Expr K → Bool
  | .num x, .num y => Scalar.beq x y
  | .sym m, .sym n => m == n
  | .der a, .der b => a.beq b
  | .neg a, .neg b => a.beq b
  | .add a b, .add c d => a.beq c && b.beq d
  | .sub a b, .sub c d => a.beq c && b.beq d
  | .mul a b, .mul c d => a.beq c && b.beq d
  | .div a b, .div c d => a.beq c && b.beq d
  | .pow a b, .pow c d => a.beq c && b.beq d
  | .call f as, .call g bs => f == g && beqAll as bs
  | _, _ => false

/-- Whether two lists of expressions are equal item by item. -/
def beqAll : List (Expr K) → List (Expr K) → Bool
  | [], [] => true
  | a :: as, b :: bs => a.beq b && beqAll as bs
  | _, _ => false

end

/-- Equality of expressions is that of their form, with numbers compared as numbers. -/
instance : BEq (Expr K) := ⟨beq⟩

/-! ## Numbers -/

/-- The number zero. -/
def zero : Expr K := .num Scalar.zero

/-- The number one. -/
def one : Expr K := .num Scalar.one

/-- The number two. -/
def two : Expr K := .num Scalar.two

omit [Scalar K] in
/-- The number, if the expression is one. -/
def number? : Expr K → Option K
  | .num x => some x
  | _ => none

/-- Whether the expression is the number zero. -/
def isZero : Expr K → Bool
  | .num x => Scalar.isZero x
  | _ => false

/-- Whether the expression is the number one. -/
def isOne : Expr K → Bool
  | .num x => Scalar.isOne x
  | _ => false

/-- Whether the expression is the number minus one. -/
def isMinusOne : Expr K → Bool
  | .num x => Scalar.isMinusOne x
  | _ => false

/-- The opposite of a number below zero. -/
def negated? : Expr K → Option K
  | .num x => if Scalar.isNegative x then some (Scalar.neg x) else none
  | _ => none

/-! ## Occurrence -/

mutual

/-- Whether an atom occurs in the expression.  A time derivative is an atom of its own: the
derivative of a symbol does not contain the symbol. -/
def contains : Expr K → Expr K → Bool
  | .num x, atom => .num x == atom
  | .sym n, atom => .sym n == atom
  | .der a, atom => .der a == atom
  | .neg a, atom => .neg a == atom || a.contains atom
  | .add a b, atom => .add a b == atom || (a.contains atom || b.contains atom)
  | .sub a b, atom => .sub a b == atom || (a.contains atom || b.contains atom)
  | .mul a b, atom => .mul a b == atom || (a.contains atom || b.contains atom)
  | .div a b, atom => .div a b == atom || (a.contains atom || b.contains atom)
  | .pow a b, atom => .pow a b == atom || (a.contains atom || b.contains atom)
  | .call f args, atom => .call f args == atom || anyContains args atom

/-- Whether an atom occurs in some expression of a list. -/
def anyContains : List (Expr K) → Expr K → Bool
  | [], _ => false
  | a :: rest, atom => a.contains atom || anyContains rest atom

end

/-- Whether one of the atoms occurs in the expression. -/
def containsAny (e : Expr K) (atoms : List (Expr K)) : Bool := atoms.any e.contains

/-! ## Substitution -/

/-- The replacement of an expression: that of the first pair it equals. -/
def replacement? (pairs : List (Expr K × Expr K)) (e : Expr K) : Option (Expr K) :=
  (pairs.find? fun p => p.1 == e).map Prod.snd

mutual

/-- Replace every occurrence of a first part by its second part, at once and from the outside.
Operands of time derivatives are searched too. -/
def subst (pairs : List (Expr K × Expr K)) : Expr K → Expr K
  | .num x => (replacement? pairs (.num x)).getD (.num x)
  | .sym n => (replacement? pairs (.sym n)).getD (.sym n)
  | .der a => (replacement? pairs (.der a)).getD (.der (a.subst pairs))
  | .neg a => (replacement? pairs (.neg a)).getD (.neg (a.subst pairs))
  | .add a b => (replacement? pairs (.add a b)).getD (.add (a.subst pairs) (b.subst pairs))
  | .sub a b => (replacement? pairs (.sub a b)).getD (.sub (a.subst pairs) (b.subst pairs))
  | .mul a b => (replacement? pairs (.mul a b)).getD (.mul (a.subst pairs) (b.subst pairs))
  | .div a b => (replacement? pairs (.div a b)).getD (.div (a.subst pairs) (b.subst pairs))
  | .pow a b => (replacement? pairs (.pow a b)).getD (.pow (a.subst pairs) (b.subst pairs))
  | .call f args => (replacement? pairs (.call f args)).getD (.call f (substAll pairs args))

/-- Replace in every expression of a list. -/
def substAll (pairs : List (Expr K × Expr K)) : List (Expr K) → List (Expr K)
  | [] => []
  | a :: rest => a.subst pairs :: substAll pairs rest

end

end Expr

end FlatModel.Symbolic
