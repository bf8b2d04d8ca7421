import SelectionFormula.Rational.Logarithm
import SelectionFormula.Rational.Nearest
import SelectionFormula.Binary64.Basic

/-!
Rounding an exact rational to the nearest number of a binary format, a half
going to the even significand.

`Format.round` is the rule for any precision and exponent range. `ofRat` is its
binary64 instance and the only way this library makes a finite number out of a
value: `round_canonical` says that what it yields is in stored form unless the
magnitude is beyond the format, and then the result is infinite.
-/

namespace SelectionFormula

/-- A binary format: how many bits a significand has and which exponents it may
carry. -/
structure Format where
  precision : Nat
  least : Int
  greatest : Int
  deriving DecidableEq, Repr

namespace Format

def binary64 : Format := ⟨53, -1074, 971⟩

def binary32 : Format := ⟨24, -149, 104⟩

/-- The exponent of the last bit that the format keeps of a positive number. -/
def quantum (format : Format) (x : Rat) : Int :=
  max format.least (floorLog 2 Nat.log2 x + 1 - format.precision)

/-- Significand and exponent nearest to a positive number. A significand that
rounds up to one bit too many is the least one of the next exponent. -/
def round (format : Format) (x : Rat) : Nat × Int :=
  let q := format.quantum x
  let m := (nearestInt (x / 2 ^ q)).toNat
  if m = 1 <<< format.precision then (1 <<< (format.precision - 1), q + 1) else (m, q)

end Format

/-- Powers of two grow with the exponent. -/
theorem two_zpow_le {a b : Int} (le : a ≤ b) : (2 : Rat) ^ a ≤ 2 ^ b := by
  obtain ⟨n, rfl⟩ : ∃ n : Nat, b = a + n := ⟨(b - a).toNat, by omega⟩
  have one_le : (1 : Rat) ≤ 2 ^ n := by
    exact_mod_cast Nat.one_le_two_pow
  rw [Rat.zpow_add (by decide), Rat.zpow_natCast]
  have := Rat.mul_le_mul_of_nonneg_left one_le
    (Rat.le_of_lt (Rat.zpow_pos (a := 2) (n := a) (by decide)))
  rwa [Rat.mul_one] at this

/-- In units of its quantum a positive number has at most the bits of the format,
and all of them above the least exponent. -/
theorem Format.scaled_bounds (format : Format) (precise : 0 < format.precision) {x : Rat}
    (pos : 0 < x) :
    x / 2 ^ format.quantum x < (2 : Rat) ^ format.precision ∧
      (format.quantum x = format.least ∨
        (2 : Rat) ^ (format.precision - 1) ≤ x / 2 ^ format.quantum x) := by
  have ⟨low, high⟩ := floorLog_spec isNatLog_log2 pos
  have two_ne : (2 : Rat) ≠ 0 := by decide
  have two_pos : (0 : Rat) < 2 := by decide
  have unit_pos : (0 : Rat) < 2 ^ format.quantum x := Rat.zpow_pos two_pos
  constructor
  · rw [Rat.div_lt_iff unit_pos]
    refine Std.lt_of_lt_of_le high ?_
    rw [← Rat.zpow_natCast, ← Rat.zpow_add two_ne]
    apply two_zpow_le
    simp only [quantum]
    omega
  · by_cases least : format.quantum x = format.least
    · exact .inl least
    · refine .inr ?_
      refine Rat.not_lt.mp fun below => Rat.not_le.mpr ((Rat.div_lt_iff unit_pos).mp below) ?_
      refine Rat.le_trans ?_ low
      rw [← Rat.zpow_natCast, ← Rat.zpow_add two_ne]
      apply two_zpow_le
      simp only [quantum] at least ⊢
      omega

namespace Binary64

theorem round_canonical {x : Rat} (pos : 0 < x)
    (le : (Format.binary64.round x).2 ≤ 971) :
    Canonical (Format.binary64.round x).1 (Format.binary64.round x).2 := by
  have ⟨high, low⟩ := Format.binary64.scaled_bounds (by decide) pos
  have least_le : -1074 ≤ Format.binary64.quantum x := Int.le_max_left ..
  have high' : nearestInt (x / 2 ^ Format.binary64.quantum x) ≤ 1 <<< 53 :=
    nearestInt_le (by exact_mod_cast high)
  have low' : Format.binary64.quantum x = -1074 ∨
      1 <<< 52 ≤ nearestInt (x / 2 ^ Format.binary64.quantum x) :=
    low.imp_right fun le => le_nearestInt (by exact_mod_cast le)
  simp only [Format.round] at le ⊢
  have precision : Format.binary64.precision = 53 := rfl
  rw [precision] at le ⊢
  split at le
  · next carry =>
    rw [if_pos carry]
    exact ⟨by show 1 <<< 52 < 1 <<< 53; decide, Int.le_add_one least_le, le, .inl (Nat.le_refl _)⟩
  · next fits =>
    rw [if_neg fits]
    exact ⟨by omega, least_le, le, by omega⟩

/-- The number nearest to a rational; a rational zero takes the given sign. -/
def ofRat (zeroSign : Bool) (x : Rat) : Binary64 :=
  if nonzero : x = 0 then zero zeroSign
  else
    let negative := decide (x < 0)
    if le : (Format.binary64.round x.abs).2 ≤ 971 then
      .finite negative (Format.binary64.round x.abs).1 (Format.binary64.round x.abs).2
        (round_canonical (Rat.abs_pos_iff.mpr nonzero) le)
    else .infinite negative

/-- The number nearest to an integer. -/
def ofInt (n : Int) : Binary64 :=
  ofRat false n

/-- The number nearest to a natural number. -/
def ofNat (n : Nat) : Binary64 :=
  ofRat false n

end Binary64

end SelectionFormula
