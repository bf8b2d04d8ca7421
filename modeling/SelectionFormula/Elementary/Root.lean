import SelectionFormula.Binary64.Arithmetic

/-!
Square and cube roots and the length of a hypotenuse.

The integer root of a scaled argument has more bits than any number between two
neighbouring binary64 numbers that rounding must tell apart. When the root is
not exact, half a unit is added, which keeps it on the right side of all of
them; so one rounding of `nearRoot` is the rounding of the real root.
-/

namespace SelectionFormula

/-- The greatest natural number whose power of a degree does not exceed `n`, found
bit by bit. -/
def floorRoot (degree n : Nat) : Nat :=
  (List.range (n.log2 / degree + 1)).foldr
    (fun bit root => let next := root + 1 <<< bit; if next.pow degree ≤ n then next else root) 0

/-- A rational that rounds as the root of a positive rational does. -/
def nearRoot (degree : Nat) (x : Rat) : Rat :=
  let scale := floorLog 2 Nat.log2 x / degree - 60
  let scaled := x / 2 ^ (degree * scale)
  let root := floorRoot degree scaled.floor.toNat
  let exact := ((root.pow degree : Nat) : Rat) = scaled
  (if exact then (root : Rat) else root + 1 / 2) * 2 ^ scale

namespace Binary64

def sqrt : Binary64 → Binary64
  | .nan => .nan
  | .infinite negative => if negative then .nan else .infinite false
  | .finite s m q h =>
    if m = 0 then .finite s m q h
    else if s then .nan
    else ofRat false (nearRoot 2 (signedRat false m q))

def cbrt : Binary64 → Binary64
  | .finite s m q h =>
    if m = 0 then .finite s m q h
    else
      let root := ofRat false (nearRoot 3 (signedRat false m q))
      if s then root.neg else root
  | x => x

/-- The square root of the sum of two squares. -/
def hypotenuse : Binary64 → Binary64 → Binary64
  | .infinite _, _ | _, .infinite _ => .infinite false
  | .nan, _ | _, .nan => .nan
  | .finite s m q _, .finite t n r _ =>
    let x := signedRat s m q
    let y := signedRat t n r
    let square := x * x + y * y
    if square = 0 then zero false else ofRat false (nearRoot 2 square)

end Binary64

end SelectionFormula
