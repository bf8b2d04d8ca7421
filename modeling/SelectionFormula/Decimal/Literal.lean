import SelectionFormula.Binary64.Arithmetic

/-!
Unsigned number literals.

A decimal literal is digits with an optional point and an optional exponent; it
stands for the number nearest to the rational it denotes. A radix literal is
`0x`, `0o` or `0b` and digits of that radix; its value is accumulated digit by
digit in binary64, rounding at every digit. A text that is no radix literal is
given to a decimal reader, `decimal?` here, if its characters allow for a decimal
literal (`isDecimalText`).
-/

namespace SelectionFormula.Literal

/-- The natural number that decimal digits spell. -/
def natOfDigits (digits : List Char) : Nat :=
  Nat.ofDigitChars 10 digits 0

/-- The number nearest to `digits * 10 ^ exponent`. Magnitudes beyond the format
are settled by the place of the leading digit. -/
def nearestDecimal (digits : Nat) (exponent : Int) : Binary64 :=
  let places : Int := (Nat.toDigits 10 digits).length + exponent
  if digits = 0 then Binary64.zero false
  else if 310 < places then .infinite false
  else if places < -330 then Binary64.zero false
  else Binary64.ofRat false ((digits : Rat) * 10 ^ exponent)

/-- One or more decimal digits and nothing else. -/
def digits? (text : List Char) : Option Nat :=
  if text ≠ [] ∧ text.all Char.isDigit then some (natOfDigits text) else none

/-- What may stand behind the exponent letter: digits, with or without a sign. -/
def exponentDigits? : List Char → Option Int
  | '+' :: text => (digits? text).map fun n => (n : Int)
  | '-' :: text => (digits? text).map fun n => -(n : Int)
  | text => (digits? text).map fun n => (n : Int)

/-- The exponent part of a decimal literal, zero when there is none. -/
def exponent? : List Char → Option Int
  | [] => some 0
  | c :: text => if c = 'e' ∨ c = 'E' then exponentDigits? text else none

/-- The digits behind a point, and what follows them. -/
def fraction : List Char → List Char × List Char
  | '.' :: text => text.span Char.isDigit
  | text => ([], text)

/-- The value of a decimal literal. -/
def decimal? (text : List Char) : Option Binary64 :=
  let (whole, rest) := text.span Char.isDigit
  let (part, rest) := fraction rest
  if whole = [] ∧ part = [] then none
  else (exponent? rest).map fun e =>
    nearestDecimal (natOfDigits (whole ++ part)) (e - part.length)

/-- The value of a digit in a radix up to sixteen. -/
def digitValue? (radix : Nat) (c : Char) : Option Nat :=
  let value :=
    if c.isDigit then some (c.toNat - '0'.toNat)
    else if 'a' ≤ c ∧ c ≤ 'f' then some (c.toNat - 'a'.toNat + 10)
    else if 'A' ≤ c ∧ c ≤ 'F' then some (c.toNat - 'A'.toNat + 10)
    else none
  value.filter (· < radix)

/-- The radix that the letter behind a leading zero selects. -/
def radixOf? (letter : Char) : Option Nat :=
  if letter = 'x' ∨ letter = 'X' then some 16
  else if letter = 'o' ∨ letter = 'O' then some 8
  else if letter = 'b' ∨ letter = 'B' then some 2
  else none

/-- One more digit behind a number read so far. -/
def pushDigit (radix : Nat) (sofar : Binary64) (digit : Nat) : Binary64 :=
  (sofar.mul (Binary64.ofNat radix)).add (Binary64.ofNat digit)

/-- The value of a radix literal. -/
def radix? : List Char → Option Binary64
  | '0' :: letter :: first :: rest => do
    let radix ← radixOf? letter
    let digits ← (first :: rest).mapM (digitValue? radix)
    return digits.foldl (pushDigit radix) (Binary64.zero false)
  | _ => none

/-- A character that may stand in a decimal literal. -/
def isDecimalChar (c : Char) : Bool :=
  c.isDigit || c == '.' || c == 'e' || c == 'E' || c == '+' || c == '-'

/-- Whether a decimal reader is asked about a text. It may know words and signs
that are no part of a literal, so the text has to begin with a digit or a point and
to have no other characters than those of decimal literals. -/
def isDecimalText : List Char → Bool
  | [] => false
  | first :: rest => (first :: rest).all isDecimalChar && (first.isDigit || first == '.')

/-- The value of a number literal, with a reader for the decimal ones. -/
def numberBy? (reader : List Char → Option Binary64) (text : List Char) : Option Binary64 :=
  match radix? text with
  | some value => some value
  | none => if isDecimalText text then reader text else none

/-- The value of a number literal. -/
def number? : List Char → Option Binary64 :=
  numberBy? decimal?

end SelectionFormula.Literal
