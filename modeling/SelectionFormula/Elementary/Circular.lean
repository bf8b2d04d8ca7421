import SelectionFormula.Elementary.Enclosure

/-!
The circular functions and their inverses.

An angle is taken to within an eighth of a turn of zero by quarter turns, with
enough extra bits of the circle constant for the angle's magnitude. An inverse
tangent is halved twice before its series is summed.
-/

namespace SelectionFormula

namespace Enclosure

def sinSeries (p : Nat) (r : Enclosure) : Enclosure :=
  series p r (r.mul p r).neg (fun n => (2 * n + 2) * (2 * n + 3)) (fun _ => 1)

def cosSeries (p : Nat) (r : Enclosure) : Enclosure :=
  series p (one p) (r.mul p r).neg (fun n => (2 * n + 1) * (2 * n + 2)) (fun _ => 1)

/-- The sine of a positive angle advanced by some quarter turns. -/
def sinFrom (quarters : Int) (p : Nat) (x : Rat) : Enclosure :=
  let extra := (floorLog 2 Nat.log2 x + 2).toNat
  let fine := p + extra
  let quarter := (pi fine).divNat 2
  let angle := ofRat fine x
  let n := (angle.low + quarter.low / 2) / quarter.low
  let rest := angle.sub (quarter.scale n)
  let value :=
    match (n + quarters) % 4 with
    | 0 => sinSeries fine rest
    | 1 => cosSeries fine rest
    | 2 => (sinSeries fine rest).neg
    | _ => (cosSeries fine rest).neg
  value.shift (-extra)

def sin (p : Nat) (x : Rat) : Enclosure := sinFrom 0 p x

def cos (p : Nat) (x : Rat) : Enclosure := sinFrom 1 p x

/-- An argument whose inverse tangent is half as great. -/
def halfTangent (p : Nat) (t : Enclosure) : Enclosure :=
  t.div p ((one p).add (((one p).add (t.mul p t)).sqrt p))

/-- The inverse tangent of a rational not below zero. -/
def atan (p : Nat) (x : Rat) : Enclosure :=
  let small t := (atanSeries p (halfTangent p (halfTangent p (ofRat p t)))).scale 4
  if x ≤ 1 then small x else ((pi p).divNat 2).sub (small (1 / x))

/-- The inverse sine of a rational between zero and one. -/
def asin (p : Nat) (x : Rat) : Enclosure :=
  let t := (ofRat p x).div p ((one p).add ((ofRat p (1 - x * x)).sqrt p))
  (atanSeries p (halfTangent p (halfTangent p t))).scale 8

/-- The bounds of a real known not to be negative. -/
def nonnegative (a : Enclosure) : Enclosure :=
  ⟨max 0 a.low, a.high⟩

end Enclosure

namespace Binary64

open Enclosure

/-- The circle constant times a rational. -/
def piTimes (x : Rat) : Binary64 :=
  settle 0 fun p => ((Enclosure.pi p).mul p (Enclosure.ofRat p x))

def withSign (negative : Bool) (x : Binary64) : Binary64 :=
  if negative then x.neg else x

def sin : Binary64 → Binary64
  | .nan | .infinite _ => .nan
  | .finite s m q h =>
    if m = 0 then .finite s m q h
    else oddly (fun x => settle 0 fun p => Enclosure.sin p x) s (signedRat false m q)

def cos : Binary64 → Binary64
  | .nan | .infinite _ => .nan
  | .finite _ m q _ =>
    if m = 0 then one
    else settle 0 fun p => Enclosure.cos p (signedRat false m q)

def tan : Binary64 → Binary64
  | .nan | .infinite _ => .nan
  | .finite s m q h =>
    if m = 0 then .finite s m q h
    else oddly (fun x => settle 0 fun p => (Enclosure.sin p x).div p (Enclosure.cos p x))
      s (signedRat false m q)

def atan : Binary64 → Binary64
  | .nan => .nan
  | .infinite negative => withSign negative (piTimes (1 / 2))
  | .finite s m q h =>
    if m = 0 then .finite s m q h
    else oddly (fun x => settle 0 fun p => Enclosure.atan p x) s (signedRat false m q)

def asin : Binary64 → Binary64
  | .nan | .infinite _ => .nan
  | .finite s m q h =>
    if m = 0 then .finite s m q h
    else oddly (fun x => if 1 < x then .nan else settle 0 fun p => Enclosure.asin p x)
      s (signedRat false m q)

def acos : Binary64 → Binary64
  | .nan | .infinite _ => .nan
  | .finite s m q _ =>
    let x := signedRat false m q
    if 1 < x then .nan
    else if x = 1 then if s then piTimes 1 else zero false
    else settle 0 fun p =>
      let quarter := (Enclosure.pi p).divNat 2
      if s then quarter.add (Enclosure.asin p x) else quarter.sub (Enclosure.asin p x)

/-- The angle of the point `(x, y)` when `y` is not zero or `x` is not negative; on
the negative half-axis half a turn with the sign of `y`. -/
def atan2 : Binary64 → Binary64 → Binary64
  | .nan, _ | _, .nan => .nan
  | .infinite s, .infinite t => withSign s (piTimes (if t then 3 / 4 else 1 / 4))
  | .infinite s, .finite _ _ _ _ => withSign s (piTimes (1 / 2))
  | .finite s _ _ _, .infinite t => withSign s (if t then piTimes 1 else zero false)
  | .finite s m q _, .finite t n r _ =>
    withSign s <|
      if m = 0 then if t then piTimes 1 else zero false
      else if n = 0 then piTimes (1 / 2)
      else
        let slope := signedRat false m q / signedRat false n r
        settle 0 fun p =>
          if t then (Enclosure.pi p).sub (Enclosure.atan p slope)
          else (Enclosure.atan p slope).nonnegative

end Binary64

end SelectionFormula
