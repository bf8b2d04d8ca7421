/-!
Binary floating-point numbers of 64 bits, as values.

A finite number is a sign, a significand and an exponent in the one form the
format stores (`Binary64.Canonical`), so equal numbers other than the two zeros
are equal as values; there is one not-a-number. `toRat?` is the exact rational
value of a finite number and everything else is stated through it: the order,
the rounding of `Binary64.Rounding` and the arithmetic of `Binary64.Arithmetic`.

Equality of values tells the two zeros apart. `sameNumber` is the numeric
comparison, under which the zeros agree and not-a-number differs from itself.
-/

namespace SelectionFormula

/-- `significand * 2 ^ exponent` in the form binary64 stores it: the significand
has 53 bits, or fewer at the least exponent only. -/
structure Binary64.Canonical (significand : Nat) (exponent : Int) : Prop where
  significand_lt : significand < 1 <<< 53
  least_le : -1074 ≤ exponent
  le_greatest : exponent ≤ 971
  full_or_least : 1 <<< 52 ≤ significand ∨ exponent = -1074

/-- A binary64 number. -/
inductive Binary64 where
  | nan
  | infinite (negative : Bool)
  | finite (negative : Bool) (significand : Nat) (exponent : Int)
      (canonical : Binary64.Canonical significand exponent)
  deriving DecidableEq

namespace Binary64

theorem canonical_zero : Canonical 0 (-1074) :=
  ⟨by decide, by decide, by decide, .inr rfl⟩

/-- The zero of a sign. -/
def zero (negative : Bool) : Binary64 :=
  .finite negative 0 (-1074) canonical_zero

instance : Inhabited Binary64 := ⟨zero false⟩

/-- The value of a sign, a significand and an exponent. -/
def signedRat (negative : Bool) (significand : Nat) (exponent : Int) : Rat :=
  let magnitude := (significand : Rat) * 2 ^ exponent
  if negative then -magnitude else magnitude

/-- The exact value of a finite number. -/
def toRat? : Binary64 → Option Rat
  | .finite negative m q _ => some (signedRat negative m q)
  | _ => none

/-- Whether the sign bit is set; not-a-number counts as positive. -/
def isNegative : Binary64 → Bool
  | .nan => false
  | .infinite negative => negative
  | .finite negative _ _ _ => negative

def isNaN : Binary64 → Bool
  | .nan => true
  | _ => false

def isInfinite : Binary64 → Bool
  | .infinite _ => true
  | _ => false

/-- Zero of either sign. -/
def isZero : Binary64 → Bool
  | .finite _ m _ _ => m == 0
  | _ => false

/-- The other sign. -/
def neg : Binary64 → Binary64
  | .nan => .nan
  | .infinite negative => .infinite (!negative)
  | .finite negative m q h => .finite (!negative) m q h

/-- The sign bit cleared. -/
def abs : Binary64 → Binary64
  | .nan => .nan
  | .infinite _ => .infinite false
  | .finite _ m q h => .finite false m q h

@[simp] theorem neg_neg (x : Binary64) : x.neg.neg = x := by
  cases x <;> simp [neg]

@[simp] theorem abs_abs (x : Binary64) : x.abs.abs = x.abs := by
  cases x <;> rfl

@[simp] theorem isNegative_abs (x : Binary64) : x.abs.isNegative = false := by
  cases x <;> rfl

/-! ### Order -/

/-- The numeric order; false when either side is not a number. -/
def lt : Binary64 → Binary64 → Bool
  | .nan, _ | _, .nan => false
  | .infinite s, .infinite t => s && !t
  | .infinite s, .finite _ _ _ _ => s
  | .finite _ _ _ _, .infinite t => !t
  | .finite s m q _, .finite t n r _ => signedRat s m q < signedRat t n r

/-- The numeric comparison for equality: the two zeros are the same number and
not-a-number is not the same as itself. -/
def sameNumber : Binary64 → Binary64 → Bool
  | .nan, _ | _, .nan => false
  | .infinite s, .infinite t => s == t
  | .finite s m q _, .finite t n r _ => signedRat s m q == signedRat t n r
  | _, _ => false

/-- Below or the same number. -/
def le (x y : Binary64) : Bool :=
  x.lt y || x.sameNumber y

end Binary64

end SelectionFormula
