import SelectionFormula.Decimal.Literal

/-!
The numbers that names stand for during one evaluation.

A selection binds `x` to its number and `i` to its index. Mathematical constants
are always bound. Extra names shadow both; each is kept once, with the number it
was given last.
-/

namespace SelectionFormula

/-- The mathematical constants: the numbers nearest to them. -/
def mathConstants : List (String × Binary64) :=
  [("E", Literal.nearestDecimal 27182818284590452353602874713527 (-31)),
   ("LN2", Literal.nearestDecimal 69314718055994530941723212145818 (-32)),
   ("LN10", Literal.nearestDecimal 23025850929940456840179914546844 (-31)),
   ("LOG2E", Literal.nearestDecimal 14426950408889634073599246810019 (-31)),
   ("LOG10E", Literal.nearestDecimal 43429448190325182765112891891661 (-32)),
   ("PI", Literal.nearestDecimal 31415926535897932384626433832795 (-31)),
   ("SQRT1_2", Literal.nearestDecimal 70710678118654752440084436210485 (-32)),
   ("SQRT2", Literal.nearestDecimal 14142135623730950488016887242097 (-31))]

/-- What names stand for during one evaluation. -/
structure Bindings where
  x : Binary64
  i : Binary64
  extra : List (String × Binary64)
  extra_nodup : (extra.map (·.1)).Nodup

namespace Bindings

/-- The bindings for the selection at an index. -/
def selection (x : Binary64) (index : Nat) : Bindings :=
  { x, i := Binary64.ofNat index, extra := [], extra_nodup := List.nodup_nil }

theorem nodup_insert {extra : List (String × Binary64)} (nodup : (extra.map (·.1)).Nodup)
    (name : String) (value : Binary64) :
    (((name, value) :: extra.filter (·.1 != name)).map (·.1)).Nodup := by
  rw [List.map_cons, List.nodup_cons]
  constructor
  · simp
  · exact nodup.sublist (List.filter_sublist.map _)

/-- Give an extra name a number, in place of the one it may have. -/
def insert (bindings : Bindings) (name : String) (value : Binary64) : Bindings :=
  { bindings with
    extra := (name, value) :: bindings.extra.filter (·.1 != name)
    extra_nodup := nodup_insert bindings.extra_nodup name value }

/-- The number an extra name has. -/
def extra? (bindings : Bindings) (name : String) : Option Binary64 :=
  bindings.extra.lookup name

/-- The number a name stands for. -/
def get? (bindings : Bindings) (name : String) : Option Binary64 :=
  match bindings.extra? name with
  | some value => some value
  | none =>
    if name = "x" then some bindings.x
    else if name = "i" then some bindings.i
    else mathConstants.lookup name

/-- Equality with numbers compared as numbers; the order of extra names is of no
account. -/
def sameBindings (a b : Bindings) : Bool :=
  a.x.sameNumber b.x && a.i.sameNumber b.i && a.extra.length == b.extra.length &&
    a.extra.all fun (name, value) => (b.extra? name).any value.sameNumber

end Bindings

end SelectionFormula
