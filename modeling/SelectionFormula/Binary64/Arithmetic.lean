import SelectionFormula.Binary64.Rounding

/-!
Arithmetic: the exact rational result, rounded once.

Each operation is settled on the infinite and not-a-number operands first. On
finite operands it rounds the exact result, and the sign of an exact zero is
the operation's own rule: a sum is negative zero when both terms are negative, a
product or quotient when the signs differ, a remainder when the dividend is
negative.
-/

namespace SelectionFormula.Binary64

def add : Binary64 → Binary64 → Binary64
  | .nan, _ | _, .nan => .nan
  | .infinite s, .infinite t => if s = t then .infinite s else .nan
  | .infinite s, .finite _ _ _ _ => .infinite s
  | .finite _ _ _ _, .infinite t => .infinite t
  | .finite s m q _, .finite t n r _ => ofRat (s && t) (signedRat s m q + signedRat t n r)

def sub (x y : Binary64) : Binary64 :=
  x.add y.neg

def mul : Binary64 → Binary64 → Binary64
  | .nan, _ | _, .nan => .nan
  | .infinite s, .infinite t => .infinite (s != t)
  | .infinite s, .finite t n _ _ => if n = 0 then .nan else .infinite (s != t)
  | .finite s m _ _, .infinite t => if m = 0 then .nan else .infinite (s != t)
  | .finite s m q _, .finite t n r _ => ofRat (s != t) (signedRat s m q * signedRat t n r)

def div : Binary64 → Binary64 → Binary64
  | .nan, _ | _, .nan => .nan
  | .infinite _, .infinite _ => .nan
  | .infinite s, .finite t _ _ _ => .infinite (s != t)
  | .finite s _ _ _, .infinite t => zero (s != t)
  | .finite s m q _, .finite t n r _ =>
    if n = 0 then if m = 0 then .nan else .infinite (s != t)
    else ofRat (s != t) (signedRat s m q / signedRat t n r)

/-- The integer part of a rational, toward zero. -/
def truncate (x : Rat) : Int :=
  if 0 ≤ x then x.floor else x.ceil

/-- The remainder of the division toward zero; it has the dividend's sign. -/
def rem : Binary64 → Binary64 → Binary64
  | .nan, _ | _, .nan => .nan
  | .infinite _, _ => .nan
  | .finite s m q h, .infinite _ => .finite s m q h
  | .finite s m q _, .finite t n r _ =>
    if n = 0 then .nan
    else
      let x := signedRat s m q
      let y := signedRat t n r
      ofRat s (x - y * truncate (x / y))

/-! ### Integral values -/

/-- A finite number taken to an integer, a zero keeping the sign; other numbers
are left alone. -/
def integral (toInt : Rat → Int) : Binary64 → Binary64
  | .finite s m q _ => ofRat s (toInt (signedRat s m q))
  | x => x

def floor : Binary64 → Binary64 := integral Rat.floor

def ceil : Binary64 → Binary64 := integral Rat.ceil

/-- Toward zero. -/
def trunc : Binary64 → Binary64 := integral truncate

def one : Binary64 := ofNat 1

def half : Binary64 := one.div (ofNat 2)

/-- To the nearest integer, a half going up: one more than the floor when the
distance to the floor is at least a half. A negative number that rounds to zero
keeps its sign. -/
def round (x : Binary64) : Binary64 :=
  let low := x.floor
  let nearest := if half.le (x.sub low) then low.add one else low
  if nearest.isZero && x.isNegative then zero true else nearest

/-- The numeric sign, as one of that sign; zeros and not-a-number stay. -/
def sign (x : Binary64) : Binary64 :=
  if x.isNaN || x.isZero then x
  else if x.isNegative then one.neg else one

/-- The integer part of a number above zero, and zero for every other one. -/
def toNat : Binary64 → Nat
  | .finite s m q _ => (signedRat s m q).floor.toNat
  | _ => 0

/-- The nearest number of the 32-bit format, as a binary64 number. -/
def toSingle : Binary64 → Binary64
  | .finite s m q h =>
    if m = 0 then .finite s m q h
    else
      let (n, r) := Format.binary32.round (signedRat false m q)
      if r ≤ Format.binary32.greatest then ofRat s (signedRat s n r) else .infinite s
  | x => x

end SelectionFormula.Binary64
