import SelectionFormula.Elementary.Enclosure

/-!
The exponential function and the hyperbolic functions.

The argument is taken to within half of `ln 2` of zero by a multiple of `ln 2`,
which is a power of two in the result. Arguments beyond the range of the
format are settled before an enclosure is made.
-/

namespace SelectionFormula

namespace Enclosure

/-- The exponential of an enclosure. -/
def exp (p : Nat) (x : Enclosure) : Enclosure :=
  let ln2 := ln2 p
  let k := (x.low + ln2.low / 2) / ln2.low
  (series p (one p) (x.sub (ln2.scale k)) (· + 1) (fun _ => 1)).shift k

end Enclosure

namespace Binary64

open Enclosure

/-- Above this the exponential is beyond the greatest number. -/
def expLimit : Rat := 720

/-- Below the negation of this the exponential rounds to zero. -/
def expVanish : Rat := 750

/-- The extra precision that the exponential of a negative number needs. -/
def expExtra (x : Rat) : Nat :=
  if x < 0 then (2 * -x).ceil.toNat else 0

def exp : Binary64 → Binary64
  | .nan => .nan
  | .infinite negative => if negative then zero false else .infinite false
  | .finite s m q _ =>
    let x := signedRat s m q
    if x = 0 then one
    else if expLimit < x then .infinite false
    else if x < -expVanish then zero false
    else settle (expExtra x) fun p => (Enclosure.ofRat p x).exp p

/-- The exponential less one. -/
def expm1 : Binary64 → Binary64
  | .nan => .nan
  | .infinite negative => if negative then one.neg else .infinite false
  | .finite s m q h =>
    let x := signedRat s m q
    if x = 0 then .finite s m q h
    else if expLimit < x then .infinite false
    else if x < -expVanish then one.neg
    else settle 0 fun p => ((Enclosure.ofRat p x).exp p).sub (Enclosure.one p)

def sinh : Binary64 → Binary64
  | .finite s m q h =>
    if m = 0 then .finite s m q h
    else oddly (fun x =>
      if expLimit < x then .infinite false
      else settle 0 fun p =>
        (((Enclosure.ofRat p x).exp p).sub ((Enclosure.ofRat p (-x)).exp p)).divNat 2)
      s (signedRat false m q)
  | x => x

def cosh : Binary64 → Binary64
  | .nan => .nan
  | .infinite _ => .infinite false
  | .finite _ m q _ =>
    let x := signedRat false m q
    if x = 0 then one
    else if expLimit < x then .infinite false
    else settle 0 fun p =>
      (((Enclosure.ofRat p x).exp p).add ((Enclosure.ofRat p (-x)).exp p)).divNat 2

def tanh : Binary64 → Binary64
  | .nan => .nan
  | .infinite negative => if negative then one.neg else one
  | .finite s m q h =>
    if m = 0 then .finite s m q h
    else oddly (fun x =>
      if 40 < x then one
      else settle 0 fun p =>
        let e := (Enclosure.ofRat p (2 * x)).exp p
        (e.sub (Enclosure.one p)).div p (e.add (Enclosure.one p)))
      s (signedRat false m q)

end Binary64

end SelectionFormula
