import FlatModel.Proofs.OperatorReader

/-!
# Reading source fragments

A fragment is read back as a symbolic expression with the precedences of the language it is written in.
There are two signs and no marks for powers, which are calls like those of functions.

* `Fragment.operatorOf`, `Fragment.callOf` — what a call by its name in the text stands for;
  `operatorOf_callName`, `callOf_callName` — a function is found by the name by which it is called.
* `Fragment.grammar`, `Fragment.read?` — the grammar, and the reader of a whole text.
-/

namespace FlatModel.Fragment

open Symbolic

/-! ## Calls -/

/-- The operator that is called by a name. -/
def operatorOf (call : String) : String :=
  ((Emission.callTable.find? fun p => p.2 == call).map Prod.fst).getD call

/-- A call by its name in the text: a power if the name is that of powers. -/
def callOf (call : String) (args : List (Expr Float)) : Expr Float :=
  match args with
  | [base, exponent] =>
      if operatorOf call = "^" then .pow base exponent
      else .call (operatorOf call) [base, exponent]
  | args => .call (operatorOf call) args

/-- A function is found by the name by which it is called. -/
theorem operatorOf_callName {function : String}
    (h : function ∉ Emission.callTable.map Prod.snd) :
    operatorOf (Emission.callName function) = function := by
  have htable : ∀ p ∈ Emission.callTable, operatorOf p.2 = p.1 := by decide
  unfold Emission.callName
  rcases hlookup : Emission.callTable.lookup function with _ | call
  · have hnone : (Emission.callTable.find? fun p => p.2 == function) = none := by
      rw [List.find?_eq_none]
      intro p hp heq
      exact h (List.mem_map.mpr ⟨p, hp, beq_iff_eq.mp heq⟩)
    rw [Option.getD_none, operatorOf, hnone]
    rfl
  · rw [OrderedMap.lookup_eq_some_iff_mem (by decide)] at hlookup
    exact htable _ hlookup

/-- A word is no operator. -/
theorem ne_of_isWord {function : String} (h : isWord function = true) {operator : String}
    (hoperator : operator ∈ ["+", "-", "*", "/", "^"]) : function ≠ operator := by
  have hno : ∀ operator ∈ ["+", "-", "*", "/", "^"], isWord operator = false := by decide
  rintro rfl
  rw [hno function hoperator] at h
  cases h

/-- A function called in the text is called by its own name. -/
theorem callOf_callName {function : String} (hword : isWord function = true)
    (h : function ∉ Emission.callTable.map Prod.snd) (args : List (Expr Float)) :
    callOf (Emission.callName function) args = .call function args := by
  unfold callOf
  rw [operatorOf_callName h]
  split
  · rw [if_neg (ne_of_isWord hword (by decide))]
  · rfl

/-! ## The grammar -/

/-- The grammar of fragments. -/
def grammar : Grammar where
  plus := true
  powers := false
  call := callOf

/-- The expression of a text, if nothing is left of it. -/
def read? (text : String) : Option (Expr Float) := grammar.sums.read? text

end FlatModel.Fragment
