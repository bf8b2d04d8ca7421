import SelectionFormula.Elementary.Enclosure

/-!
Logarithms and the inverse hyperbolic functions.

A positive rational is a power of two times a number between two thirds and four
thirds, whose logarithm is twice an inverse hyperbolic tangent.
-/

namespace SelectionFormula

namespace Enclosure

/-- The natural logarithm of a positive rational. -/
def log (p : Nat) (x : Rat) : Enclosure :=
  let exponent := floorLog 2 Nat.log2 x
  let leading := x / 2 ^ exponent
  let (k, m) := if 4 / 3 < leading then (exponent + 1, leading / 2) else (exponent, leading)
  ((atanhSeries p (ofRat p ((m - 1) / (m + 1)))).scale 2).add ((ln2 p).scale k)

/-- The natural logarithm of an enclosure above zero. -/
def logBetween (p : Nat) (a : Enclosure) : Enclosure :=
  ⟨(log p (a.lowRat p)).low, (log p (a.highRat p)).high⟩

end Enclosure

namespace Binary64

open Enclosure

/-- A logarithm: infinite at zero, zero at one, not a number below zero, and
elsewhere the real that `enclose` bounds. -/
def logarithm (enclose : Rat → Nat → Enclosure) : Binary64 → Binary64
  | .nan => .nan
  | .infinite negative => if negative then .nan else .infinite false
  | .finite s m q _ =>
    let x := signedRat false m q
    if m = 0 then .infinite true
    else if s then .nan
    else if x = 1 then zero false
    else settle 0 (enclose x)

def log : Binary64 → Binary64 :=
  logarithm fun x p => Enclosure.log p x

def log2 : Binary64 → Binary64 :=
  logarithm fun x p => (Enclosure.log p x).div p (Enclosure.ln2 p)

def log10 : Binary64 → Binary64 :=
  logarithm fun x p => (Enclosure.log p x).div p (Enclosure.log p 10)

/-- The logarithm of one more than a number. -/
def log1p : Binary64 → Binary64
  | .nan => .nan
  | .infinite negative => if negative then .nan else .infinite false
  | .finite s m q h =>
    let x := signedRat s m q
    if m = 0 then .finite s m q h
    else if x = -1 then .infinite true
    else if x < -1 then .nan
    else settle 0 fun p => Enclosure.log p (1 + x)

def asinh : Binary64 → Binary64
  | .finite s m q h =>
    if m = 0 then .finite s m q h
    else oddly (fun x => settle 0 fun p =>
      ((Enclosure.ofRat p x).add ((Enclosure.ofRat p (x * x + 1)).sqrt p)).logBetween p)
      s (signedRat false m q)
  | x => x

def acosh : Binary64 → Binary64
  | .nan => .nan
  | .infinite negative => if negative then .nan else .infinite false
  | .finite s m q _ =>
    let x := signedRat s m q
    if x < 1 then .nan
    else if x = 1 then zero false
    else settle 0 fun p =>
      ((Enclosure.ofRat p x).add ((Enclosure.ofRat p (x * x - 1)).sqrt p)).logBetween p

def atanh : Binary64 → Binary64
  | .nan | .infinite _ => .nan
  | .finite s m q h =>
    if m = 0 then .finite s m q h
    else oddly (fun x =>
      if 1 < x then .nan
      else if x = 1 then .infinite false
      else settle 0 fun p => (Enclosure.log p ((1 + x) / (1 - x))).divNat 2)
      s (signedRat false m q)

end Binary64

end SelectionFormula
