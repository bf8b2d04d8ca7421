import SelectionFormula.Elementary.Root

/-!
Enclosures of real numbers, and rounding a real through them.

An `Enclosure` is a pair of integers that count units of `2 ^ -p`; the real it
stands for lies between them. The operations round outward, so they keep that
reading: the enclosure of a result contains the result for every real in the
arguments' enclosures. `settle` asks for closer and closer enclosures until both
ends round to one binary64 number, which is then the rounding of the real.
-/

namespace SelectionFormula

/-- Bounds of a real in units of `2 ^ -p`, where `p` is the precision at hand. -/
structure Enclosure where
  low : Int
  high : Int
  deriving DecidableEq, Repr

namespace Enclosure

/-- The number of units in one. -/
def unit (p : Nat) : Int :=
  ((1 <<< p : Nat) : Int)

/-- The least integer not below a quotient. -/
def ceilDiv (n d : Int) : Int :=
  -((-n) / d)

def ofRat (p : Nat) (x : Rat) : Enclosure :=
  let scaled := x * (unit p : Rat)
  ⟨scaled.floor, scaled.ceil⟩

def one (p : Nat) : Enclosure :=
  ⟨unit p, unit p⟩

def zero : Enclosure := ⟨0, 0⟩

/-- The bounds as rationals. -/
def lowRat (p : Nat) (a : Enclosure) : Rat :=
  (a.low : Rat) / (unit p : Rat)

def highRat (p : Nat) (a : Enclosure) : Rat :=
  (a.high : Rat) / (unit p : Rat)

/-- The greatest magnitude of the bounds. -/
def size (a : Enclosure) : Int :=
  max a.low.natAbs a.high.natAbs

def add (a b : Enclosure) : Enclosure :=
  ⟨a.low + b.low, a.high + b.high⟩

def neg (a : Enclosure) : Enclosure :=
  ⟨-a.high, -a.low⟩

def sub (a b : Enclosure) : Enclosure :=
  a.add b.neg

def widen (a : Enclosure) (units : Int) : Enclosure :=
  ⟨a.low - units, a.high + units⟩

/-- An integer multiple. -/
def scale (n : Int) (a : Enclosure) : Enclosure :=
  if 0 ≤ n then ⟨n * a.low, n * a.high⟩ else ⟨n * a.high, n * a.low⟩

def mul (p : Nat) (a b : Enclosure) : Enclosure :=
  let w := a.low * b.low
  let x := a.low * b.high
  let y := a.high * b.low
  let z := a.high * b.high
  ⟨min (min w x) (min y z) / unit p, ceilDiv (max (max w x) (max y z)) (unit p)⟩

/-- The quotient by a positive integer. -/
def divNat (a : Enclosure) (d : Nat) : Enclosure :=
  ⟨a.low / d, ceilDiv a.high d⟩

/-- The quotient by an enclosure above zero. -/
def divPos (p : Nat) (a b : Enclosure) : Enclosure :=
  ⟨a.low * unit p / (if 0 ≤ a.low then b.high else b.low),
    ceilDiv (a.high * unit p) (if 0 ≤ a.high then b.low else b.high)⟩

/-- The quotient by an enclosure that excludes zero. -/
def div (p : Nat) (a b : Enclosure) : Enclosure :=
  if 0 < b.low then a.divPos p b else a.neg.divPos p b.neg

/-- The product with a power of two. -/
def shift (a : Enclosure) (k : Int) : Enclosure :=
  if 0 ≤ k then ⟨a.low * unit k.toNat, a.high * unit k.toNat⟩
  else ⟨a.low / unit (-k).toNat, ceilDiv a.high (unit (-k).toNat)⟩

/-- The square root of an enclosure not below zero. -/
def sqrt (p : Nat) (a : Enclosure) : Enclosure :=
  ⟨floorRoot 2 (a.low * unit p).toNat, floorRoot 2 (a.high * unit p).toNat + 1⟩

/-! ### Series -/

/-- The sum from place `n` on of `power n / weight n`, where each power is the one
before times `ratio / divisor n`. Ratios are at most a half, so what is left out
is at most twice the first power left out. -/
def seriesFrom (p : Nat) (ratio : Enclosure) (divisor weight : Nat → Nat) :
    (steps n : Nat) → (power sum : Enclosure) → Enclosure
  | 0, _, power, sum => sum.widen (2 * power.size)
  | steps + 1, n, power, sum =>
    if power.size ≤ 1 then sum.widen (2 * power.size)
    else
      seriesFrom p ratio divisor weight steps (n + 1) ((power.mul p ratio).divNat (divisor n))
        (sum.add (power.divNat (weight n)))

/-- The whole sum that begins with the power `first`. -/
def series (p : Nat) (first ratio : Enclosure) (divisor weight : Nat → Nat) : Enclosure :=
  seriesFrom p ratio divisor weight (p + 8) 0 first zero

/-- The inverse tangent of an enclosure of magnitude at most one half. -/
def atanSeries (p : Nat) (z : Enclosure) : Enclosure :=
  series p z (z.mul p z).neg (fun _ => 1) (fun n => 2 * n + 1)

/-- The inverse hyperbolic tangent of an enclosure of magnitude at most one half. -/
def atanhSeries (p : Nat) (z : Enclosure) : Enclosure :=
  series p z (z.mul p z) (fun _ => 1) (fun n => 2 * n + 1)

/-- The natural logarithm of two: twice the inverse hyperbolic tangent of a third. -/
def ln2 (p : Nat) : Enclosure :=
  (atanhSeries p (ofRat p (1 / 3))).scale 2

/-- The circle constant: sixteen times the inverse tangent of a fifth, less four
times that of one in 239. -/
def pi (p : Nat) : Enclosure :=
  ((atanSeries p (ofRat p (1 / 5))).scale 16).sub ((atanSeries p (ofRat p (1 / 239))).scale 4)

/-! ### Rounding -/

/-- The number to which both bounds round. -/
def agreed? (p : Nat) (a : Enclosure) : Option Binary64 :=
  let low := Binary64.ofRat false (a.lowRat p)
  let high := Binary64.ofRat false (a.highRat p)
  if low = high then some low else none

/-- Of the numbers to which the bounds round, the one with an even significand. -/
def evenEnd (p : Nat) (a : Enclosure) : Binary64 :=
  match Binary64.ofRat false (a.lowRat p) with
  | .finite s m q h => if m % 2 = 0 then .finite s m q h else Binary64.ofRat false (a.highRat p)
  | x => x

end Enclosure

/-- The precisions that are tried in turn. -/
def precisions : List Nat :=
  [128, 256, 512, 1024, 2048, 4096]

/-- The rounding of a real that is given by its enclosures, at precisions increased
by `extra`. A real that no precision separates from the middle of two numbers
is taken for that middle, and goes to the even one. -/
def settle (extra : Nat) (enclose : Nat → Enclosure) : Binary64 :=
  match precisions.findSome? fun p => (enclose (p + extra)).agreed? (p + extra) with
  | some x => x
  | none => (enclose (4096 + extra)).evenEnd (4096 + extra)

/-- An odd function given on positive arguments; a negative argument's value is the
negated value of its magnitude. -/
def oddly (onPositive : Rat → Binary64) (negative : Bool) (magnitude : Rat) : Binary64 :=
  let value := onPositive magnitude
  if negative then value.neg else value

end SelectionFormula
