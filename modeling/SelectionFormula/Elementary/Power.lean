import SelectionFormula.Elementary.Exponential
import SelectionFormula.Elementary.Logarithm

/-!
Powers.

A power with an exponent that is not a number is not a number, and so is a power
of one or minus one with an infinite exponent. Apart from these, an exponent
of zero gives one for every base, powers of zero and of infinity are zero or
infinite, and a negative base has a power for integer exponents only, whose
sign is that of the base for odd ones.
-/

namespace SelectionFormula.Binary64

/-- Whether a rational is an odd integer. -/
def isOddInteger (y : Rat) : Bool :=
  y.den == 1 && y.num % 2 == 1

/-- A positive base other than one to an exponent other than zero: exactly for
integer exponents of moderate size, through the logarithm for the others. -/
def powPositive (x y : Rat) : Binary64 :=
  let rough := (Enclosure.log 128 x).mul 128 (Enclosure.ofRat 128 y)
  if expLimit < rough.lowRat 128 then .infinite false
  else if rough.highRat 128 < -expVanish then zero false
  else if y.den = 1 ∧ y.abs ≤ 1100 then ofRat false (x ^ y.num)
  else
    let extra := expExtra (rough.lowRat 128)
    let wide := (floorLog 2 Nat.log2 y.abs + 8).toNat
    settle extra fun p =>
      let fine := p + wide
      let exponent := (Enclosure.log fine x).mul fine (Enclosure.ofRat fine y)
      (exponent.shift (-wide)).exp p

/-- A power of zero or of infinity: `large` says whether the result is infinite. -/
def powExtreme (large negative : Bool) : Binary64 :=
  if large then .infinite negative else zero negative

def pow : Binary64 → Binary64 → Binary64
  | _, .nan => .nan
  | .nan, .infinite _ => .nan
  | .infinite _, .infinite t => powExtreme (!t) false
  | .finite _ m q _, .infinite t =>
    let magnitude := signedRat false m q
    if magnitude = 1 then .nan else powExtreme (decide (1 < magnitude) != t) false
  | x, .finite t n r _ =>
    let y := signedRat t n r
    if n = 0 then one
    else
      match x with
      | .nan => .nan
      | .infinite s => powExtreme (!t) (s && isOddInteger y)
      | .finite s m q _ =>
        let magnitude := signedRat false m q
        if m = 0 then powExtreme t (s && isOddInteger y)
        else if s ∧ y.den ≠ 1 then .nan
        else
          let value := if magnitude = 1 then one else powPositive magnitude y
          if s && isOddInteger y then value.neg else value

end SelectionFormula.Binary64
