import SelectionFormula.Binary64.Basic

/-!
The interchange encoding: a sign bit, eleven exponent bits and fifty-two bits of
significand.
-/

namespace SelectionFormula.Binary64

theorem canonical_subnormal {m : Nat} (lt : m < 1 <<< 52) : Canonical m (-1074) :=
  ⟨by omega, by decide, by decide, .inr rfl⟩

theorem canonical_normal {m field : Nat} (lt : m < 1 <<< 52) (pos : 0 < field)
    (finite : field < 2047) : Canonical (m + 1 <<< 52) (field - 1075 : Int) :=
  ⟨by omega, by omega, by omega, .inl (by omega)⟩

/-- The number that the low 64 bits of a natural number encode. -/
def ofBits (bits : Nat) : Binary64 :=
  let fraction := bits % 1 <<< 52
  let field := bits / 1 <<< 52 % 2048
  let negative := bits.testBit 63
  have fraction_lt : fraction < 1 <<< 52 := Nat.mod_lt _ (by decide)
  if subnormal : field = 0 then
    .finite negative fraction (-1074) (canonical_subnormal fraction_lt)
  else if finite : field < 2047 then
    .finite negative (fraction + 1 <<< 52) (field - 1075)
      (canonical_normal fraction_lt (by omega) finite)
  else if fraction = 0 then .infinite negative
  else .nan

end SelectionFormula.Binary64
