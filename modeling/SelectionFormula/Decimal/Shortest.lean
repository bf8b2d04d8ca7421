import SelectionFormula.Binary64.Rounding

/-!
The shortest decimal that reads back as a given number.

The reals that round to a finite number form an interval around it, ends
included when the significand is even. `shortest` takes the coarsest decimal
grid with a point in that interval; of the grid's two neighbours of the number
it takes the one inside, of two inside the nearer, and of two equally near the
even one. If a grid has a point in the interval, one of these neighbours is
such a point, so no decimal with fewer digits reads back.
-/

namespace SelectionFormula

/-- The number `digits * 10 ^ exponent`. -/
structure Decimal where
  digits : Nat
  exponent : Int
  deriving DecidableEq, Repr

namespace Decimal

def toRat (d : Decimal) : Rat :=
  (d.digits : Rat) * 10 ^ d.exponent

end Decimal

/-- The reals that round to one positive number. -/
structure RoundingInterval where
  value : Rat
  low : Rat
  high : Rat
  closed : Bool

namespace RoundingInterval

/-- The interval of `significand * 2 ^ exponent`: half way to each neighbour.
Below a power of two the neighbour is half as far, except at the least
exponent. -/
def ofParts (significand : Nat) (exponent : Int) : RoundingInterval :=
  let unit : Rat := 2 ^ exponent
  let value := significand * unit
  let below := if significand = 1 <<< 52 ∧ exponent ≠ Format.binary64.least then unit / 4 else unit / 2
  { value, low := value - below, high := value + unit / 2, closed := significand % 2 = 0 }

def contains (interval : RoundingInterval) (x : Rat) : Bool :=
  if interval.closed then interval.low ≤ x && x ≤ interval.high
  else interval.low < x && x < interval.high

/-- The point of the grid `10 ^ exponent` in the interval that `shortest` would
take. -/
def onGrid? (interval : RoundingInterval) (exponent : Int) : Option Decimal :=
  let scaled := interval.value / 10 ^ exponent
  let below := scaled.floor.toNat
  let above := below + 1
  let inside n := interval.contains (Decimal.toRat ⟨n, exponent⟩)
  let rest := scaled - below
  match inside below, inside above with
  | true, true =>
    if rest < 1 / 2 ∨ rest = 1 / 2 ∧ below % 2 = 0 then some ⟨below, exponent⟩
    else some ⟨above, exponent⟩
  | true, false => some ⟨below, exponent⟩
  | false, true => some ⟨above, exponent⟩
  | false, false => none

end RoundingInterval

/-- The shortest decimal that reads back as `significand * 2 ^ exponent`.
Seventeen digits always suffice. -/
def shortest (significand : Nat) (exponent : Int) : Decimal :=
  let interval := RoundingInterval.ofParts significand exponent
  let leading := floorLog 10 log10 interval.value
  ((List.range 17).findSome? fun (n : Nat) => interval.onGrid? (leading - n)).getD ⟨significand, 0⟩

end SelectionFormula
