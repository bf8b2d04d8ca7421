import SelectionFormula.Decimal.Literal
import SelectionFormula.Decimal.Shortest

/-!
The text of a number.

A finite number other than zero is written with the digits of its shortest
decimal, positionally when its magnitude is at least `10 ^ -6` and below
`10 ^ 21`, and otherwise as a leading digit, the rest behind a point, and a
signed exponent. Both zeros are `0`; the other texts are `NaN`, `Infinity` and
`-Infinity`. The digits and the point may as well be taken from the decimal as
some printer writes it, in whatever notation (`normalized`).
-/

namespace SelectionFormula

/-- The digits of a decimal without zeros at the end. -/
def Decimal.significantDigits (d : Decimal) : List Char :=
  ((Nat.toDigits 10 d.digits).reverse.dropWhile (· == '0')).reverse

/-- How far the decimal point stands to the right of the first digit's left side. -/
def Decimal.pointPosition (d : Decimal) : Int :=
  (Nat.toDigits 10 d.digits).length + d.exponent

/-- Zeros to fill a number of places. -/
def zeros (places : Int) : List Char :=
  List.replicate places.toNat '0'

/-- The exponent part: its sign is always written. -/
def exponentText (exponent : Int) : List Char :=
  (if exponent < 0 then ['e', '-'] else ['e', '+']) ++ Nat.toDigits 10 exponent.natAbs

/-- Digits without the zeros at their ends. -/
def stripped (digits : List Char) : List Char :=
  ((digits.dropWhile (· == '0')).reverse.dropWhile (· == '0')).reverse

/-- The digits of a printed decimal without the zeros at their ends, and where its
point stands among them. The point is behind all digits if none is printed. -/
def normalized (printed : List Char) : List Char × Int :=
  let mantissa := printed.takeWhile fun c => !(c == 'e' || c == 'E')
  let exponent := (Literal.exponent? (printed.drop mantissa.length)).getD 0
  let digits := mantissa.filter (· != '.')
  let point := (mantissa.takeWhile (· != '.')).length
  (stripped digits, point + exponent - (digits.takeWhile (· == '0')).length)

/-- Digits laid out around a decimal point at a position. -/
def layout (digits : List Char) (point : Int) : List Char :=
  if digits.length ≤ point ∧ point ≤ 21 then
    digits ++ zeros (point - digits.length)
  else if 0 < point ∧ point ≤ 21 then
    digits.take point.toNat ++ '.' :: digits.drop point.toNat
  else if -6 < point ∧ point ≤ 0 then
    '0' :: '.' :: (zeros (-point) ++ digits)
  else
    match digits with
    | first :: second :: rest => first :: '.' :: second :: rest ++ exponentText (point - 1)
    | _ => digits ++ exponentText (point - 1)

/-- The characters of a number's text. -/
def Binary64.chars : Binary64 → List Char
  | .nan => "NaN".toList
  | .infinite false => "Infinity".toList
  | .infinite true => "-Infinity".toList
  | .finite negative m q _ =>
    if m = 0 then ['0']
    else
      let decimal := shortest m q
      let magnitude := layout decimal.significantDigits decimal.pointPosition
      if negative then '-' :: magnitude else magnitude

/-- The text of a number. -/
def Binary64.text (x : Binary64) : String :=
  String.ofList x.chars

end SelectionFormula
