import SelectionFormula.Expr.Reading
import SelectionFormula.Expr.Written
import SelectionFormula.Value.Plain

/-!
Formulas: a text together with the expression it was read as.

A formula is read once and evaluated once per selection. A rejection's location
counts characters of the text as it was given.
-/

namespace SelectionFormula

structure Formula where
  source : String
  root : Expr

/-- Why a text is no formula, with the place in characters. -/
def Stop.rejectionIn (text : List Char) : Stop → Rejection
  | .rejected rejection => { rejection with location := Text.charsBefore rejection.location text }
  | .outOfText => ⟨.unparsableToken, 0⟩

namespace Formula

/-- Read a formula's text. -/
def parse (text : String) : Except Rejection Formula :=
  match Expr.read text.toList with
  | .ok root => .ok ⟨text, root⟩
  | .error stop => .error (stop.rejectionIn text.toList)

/-- Why a text is no formula, if it is none. -/
def fault? (text : String) : Option Rejection :=
  match parse text with
  | .ok _ => none
  | .error rejection => some rejection

/-- Whether evaluation never draws a random number. -/
def isDeterministic (formula : Formula) : Bool :=
  !formula.root.callsRandom

def evaluate (formula : Formula) (bindings : Bindings) : Sampled Value :=
  formula.root.evaluate bindings

/-- The text that replaces the selection at an index whose number is `x`. -/
def apply (formula : Formula) (x : Binary64) (index : Nat) : Sampled String := do
  (← formula.evaluate (.selection x index)).render

/-- The same text and the same tree, numbers compared as numbers. -/
def sameFormula (a b : Formula) : Bool :=
  a.source == b.source && a.root.sameTree b.root

end Formula

end SelectionFormula
