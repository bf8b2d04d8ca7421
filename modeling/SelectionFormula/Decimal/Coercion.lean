import SelectionFormula.Decimal.Literal
import SelectionFormula.Text.Blank

/-!
The number that a selection's text stands for.

Blank text is zero. Otherwise the trimmed text is a literal, or one sign in
front of a decimal literal or of `Infinity`; any other text is not a number.
-/

namespace SelectionFormula

/-- The magnitude behind an optional sign: `Infinity` or a decimal literal, not a
radix literal. -/
def coercedMagnitude? (text : List Char) : Option Binary64 :=
  if text = "Infinity".toList then some (.infinite false)
  else if (Literal.radix? text).isSome then none
  else Literal.number? text

/-- Text without its sign, and whether that was a minus. -/
def splitSign : List Char → Bool × List Char
  | '-' :: text => (true, text)
  | '+' :: text => (false, text)
  | text => (false, text)

/-- The number that characters stand for. -/
def coerceChars (chars : List Char) : Binary64 :=
  let text := Text.trim chars
  if text = [] then Binary64.zero false
  else
    match Literal.radix? text with
    | some value => value
    | none =>
      let (negative, unsigned) := splitSign text
      match coercedMagnitude? unsigned with
      | some value => if negative then value.neg else value
      | none => .nan

/-- The number that a selection's text stands for. -/
def coerceNumber (text : String) : Binary64 :=
  coerceChars text.toList

end SelectionFormula
