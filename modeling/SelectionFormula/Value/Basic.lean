import SelectionFormula.Bindings
import SelectionFormula.Expr.Basic

/-!
Results of evaluation.

A value is a number, an array, or nothing. An array is not yet evaluated: it holds
its elements' trees and the bindings under which each of them is evaluated anew
on every access.
-/

namespace SelectionFormula

/-- An array whose elements are evaluated on access. -/
structure LazyArray where
  elements : List Expr
  bindings : Bindings

inductive Value where
  | number (value : Binary64)
  | array (items : LazyArray)
  | empty

namespace LazyArray

def length (items : LazyArray) : Nat :=
  items.elements.length

def isEmpty (items : LazyArray) : Bool :=
  items.elements.isEmpty

/-- The place that a number selects: its integer part, not-a-number counting as
zero. A number below zero or past the end selects none. -/
def place? (items : LazyArray) (position : Binary64) : Option Nat :=
  let index := if position.isNaN then Binary64.zero false else position.trunc
  if index.lt (Binary64.zero false) || (Binary64.ofNat items.length).le index then none
  else some index.toNat

/-- The tree at the place that a number selects. -/
def elementAt? (items : LazyArray) (position : Binary64) : Option Expr :=
  (items.place? position).bind (items.elements[·]?)

theorem mem_of_elementAt? {items : LazyArray} {position : Binary64} {e : Expr}
    (eq : items.elementAt? position = some e) : e ∈ items.elements := by
  obtain ⟨place, _, at_place⟩ := Option.bind_eq_some_iff.mp eq
  exact List.mem_of_getElem? at_place

/-- A short description: the number of elements. -/
def describe (items : LazyArray) : String :=
  "LazyArray \x7b len: " ++ toString items.length ++ " \x7d"

end LazyArray

namespace Value

def number? : Value → Option Binary64
  | number value => some value
  | _ => none

def array? : Value → Option LazyArray
  | array items => some items
  | _ => none

def isEmpty : Value → Bool
  | empty => true
  | _ => false

/-- A number, or nothing. -/
def ofNumber? : Option Binary64 → Value
  | some value => number value
  | none => empty

/-- How much of a tree a value holds on to. -/
noncomputable def held : Value → Nat
  | array items => sizeOf items.elements
  | _ => 0

@[simp] theorem held_ofNumber? (value? : Option Binary64) : (ofNumber? value?).held = 0 := by
  cases value? <;> rfl

end Value

end SelectionFormula
