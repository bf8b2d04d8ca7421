import SelectionFormula.Binary64.Bits
import SelectionFormula.Main
import SelectionFormula.Proofs.Text.Nesting
import SelectionFormula.Proofs.Text.Occurrence
import SelectionFormula.Proofs.Text.Matching
import SelectionFormula.Proofs.Text.Grammar
import SelectionFormula.Proofs.Text.Splitting
import SelectionFormula.Proofs.Text.Trim
import SelectionFormula.Proofs.Reading.Part
import SelectionFormula.Proofs.Reading.Answer
import SelectionFormula.Proofs.Reading.Location
import SelectionFormula.Proofs.Decimal.Literal
import SelectionFormula.Proofs.Reading.Derivation
import SelectionFormula.Proofs.Reading.Token
import SelectionFormula.Proofs.Reading.Acceptance
import SelectionFormula.Proofs.Reading.Chain
import SelectionFormula.Proofs.Binary64.Interval
import SelectionFormula.Proofs.Decimal.Shortest
import SelectionFormula.Proofs.Decimal.ReadBack
import SelectionFormula.Proofs.Reading.Operand
import SelectionFormula.Proofs.Reading.Partner
import SelectionFormula.Proofs.Reading.Conditional
import SelectionFormula.Proofs.Reading.RoundTrip
import SelectionFormula.Proofs.Reading.Unbalanced
import SelectionFormula.Proofs.Reading.Outside
import SelectionFormula.Proofs.Reading.Number
import SelectionFormula.Proofs.Reading.Frame
import SelectionFormula.Proofs.Binary64.Exact
import SelectionFormula.Proofs.Value.Eager
import SelectionFormula.Proofs.Decimal.Unsigned
import SelectionFormula.Proofs.Reading.Image
import SelectionFormula.Proofs.Decimal.Coercion
import SelectionFormula.Proofs.Decimal.Integer
import SelectionFormula.Proofs.Decimal.Normal
import SelectionFormula.Proofs.Decimal.Layout
import SelectionFormula.Proofs.Binary64.Nearest
import SelectionFormula.Proofs.Decimal.Grammar
import SelectionFormula.Proofs.Decimal.Radix
import SelectionFormula.Proofs.Binary64.Word
import SelectionFormula.Proofs.Value.Bitwise
import SelectionFormula.Proofs.Value.Extremum
import SelectionFormula.Proofs.Selection.Commands
import SelectionFormula.Proofs.Binary64.SignedZero
import SelectionFormula.Proofs.Value.Alike
import SelectionFormula.Proofs.Value.EqualBindings
import SelectionFormula.Proofs.Value.Inquiry
import SelectionFormula.Proofs.Value.Names
import SelectionFormula.Proofs.Value.Context
import SelectionFormula.Proofs.Value.Absence
import SelectionFormula.Proofs.Reading.Cuts
import SelectionFormula.Proofs.Selection.Locality
import SelectionFormula.Proofs.Reading.Product
import SelectionFormula.Proofs.Selection.Lines
import SelectionFormula.Proofs.Selection.Stepping
import SelectionFormula.Proofs.Binary64.Round
