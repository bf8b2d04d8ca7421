/-!
The integer logarithm of a positive rational: the exponent of the greatest
power of a base that does not exceed it.

`floorLog_spec` is the defining bound. It holds for every base above one whose
logarithm on natural numbers is given, so the binary logarithm that rounding
needs and the decimal one that digits need are one function.
-/

namespace SelectionFormula

/-- `log` is the integer logarithm to `base` on positive natural numbers. -/
structure IsNatLog (base : Nat) (log : Nat → Nat) : Prop where
  one_lt : 1 < base
  le {n : Nat} : n ≠ 0 → (base : Rat) ^ log n ≤ n
  lt {n : Nat} : n ≠ 0 → (n : Rat) < base ^ (log n + 1)

/-- The exponent of the greatest power of `base` not above a positive rational.
The logarithms of numerator and denominator leave two candidates. -/
def floorLog (base : Nat) (log : Nat → Nat) (x : Rat) : Int :=
  let upper : Int := log x.num.natAbs - log x.den
  if (base : Rat) ^ upper ≤ x then upper else upper - 1

theorem isNatLog_log2 : IsNatLog 2 Nat.log2 where
  one_lt := by decide
  le h := by exact_mod_cast Nat.log2_self_le h
  lt _ := by exact_mod_cast Nat.lt_log2_self

/-- How many decimal places a natural number is above its last digit. -/
def log10 (n : Nat) : Nat :=
  (Nat.toDigits 10 n).length - 1

theorem isNatLog_log10 : IsNatLog 10 log10 where
  one_lt := by decide
  le := by
    intro n h
    suffices 10 ^ log10 n ≤ n by exact_mod_cast this
    by_cases small : (Nat.toDigits 10 n).length - 1 = 0
    · simp only [log10, small]; omega
    · have := Nat.length_toDigits_le_iff (b := 10) (n := n)
        (k := (Nat.toDigits 10 n).length - 1) (by decide) (by omega)
      simp only [log10]
      omega
  lt := by
    intro n _
    suffices n < 10 ^ (log10 n + 1) by exact_mod_cast this
    have pos := Nat.length_toDigits_pos (b := 10) (n := n)
    have := Nat.length_toDigits_le_iff (b := 10) (n := n)
      (k := (Nat.toDigits 10 n).length) (by decide) pos
    simp only [log10, Nat.sub_add_cancel pos]
    exact this.mp (Nat.le_refl _)

/-- The two candidates: the quotient of bounds on numerator and denominator. -/
theorem between_candidates {base : Nat} {log : Nat → Nat} (isLog : IsNatLog base log) {x : Rat}
    (pos : 0 < x) :
    (base : Rat) ^ ((log x.num.natAbs : Int) - log x.den - 1) ≤ x ∧
      x < (base : Rat) ^ ((log x.num.natAbs : Int) - log x.den + 1) := by
  have base_ne : (base : Rat) ≠ 0 := by
    have := isLog.one_lt
    exact_mod_cast (by omega : base ≠ 0)
  have base_pos : (0 : Rat) < base := by
    have := isLog.one_lt
    exact_mod_cast (by omega : 0 < base)
  have den_pos : (0 : Rat) < x.den := by exact_mod_cast x.den_pos
  have num_pos : 0 < x.num := by
    have := (Rat.lt_iff 0 x).mp pos
    simpa using this
  have num_eq : ((x.num.natAbs : Nat) : Rat) = x.num := by
    have : ((x.num.natAbs : Nat) : Int) = x.num := by omega
    rw [← Rat.intCast_natCast, this]
  have x_eq : x * x.den = x.num.natAbs := by
    have quotient := x.mkRat_self
    rw [Rat.mkRat_eq_div] at quotient
    rw [num_eq]
    generalize (x.num : Rat) = n at quotient
    generalize (x.den : Rat) = d at quotient den_pos
    grind
  have num_le : (base : Rat) ^ (log x.num.natAbs) ≤ x.num.natAbs := by
    exact isLog.le (by omega)
  have lt_num : (x.num.natAbs : Rat) < (base : Rat) ^ (log x.num.natAbs + 1) := by
    exact isLog.lt (by omega)
  have den_le : (base : Rat) ^ (log x.den) ≤ x.den := by
    exact isLog.le x.den_nz
  have lt_den : (x.den : Rat) < (base : Rat) ^ (log x.den + 1) := by
    exact isLog.lt x.den_nz
  generalize log x.num.natAbs = a at *
  generalize log x.den = b at *
  constructor
  · apply Rat.le_of_mul_le_mul_right _ den_pos
    rw [x_eq]
    refine Rat.le_trans (Rat.le_of_lt ?_) num_le
    have := Rat.mul_lt_mul_of_pos_left lt_den
      (Rat.zpow_pos (n := (a : Int) - b - 1) base_pos)
    rwa [← Rat.zpow_natCast (base : Rat) (b + 1), ← Rat.zpow_add base_ne,
      show (a : Int) - b - 1 + ((b + 1 : Nat) : Int) = (a : Int) by omega,
      Rat.zpow_natCast] at this
  · apply Rat.lt_of_mul_lt_mul_right (c := (base : Rat) ^ b) _ (Rat.le_of_lt (Rat.pow_pos base_pos))
    have rhs : (base : Rat) ^ ((a : Int) - b + 1) * (base : Rat) ^ b = (base : Rat) ^ (a + 1) := by
      rw [← Rat.zpow_natCast (base : Rat) b, ← Rat.zpow_add base_ne,
        show (a : Int) - b + 1 + (b : Int) = ((a + 1 : Nat) : Int) by omega, Rat.zpow_natCast]
    rw [rhs]
    have := Rat.mul_le_mul_of_nonneg_left den_le (Rat.le_of_lt pos)
    rw [x_eq] at this
    exact Std.lt_of_le_of_lt this lt_num

/-- A positive rational lies between neighbouring powers of the base. -/
theorem floorLog_spec {base : Nat} {log : Nat → Nat} (isLog : IsNatLog base log) {x : Rat}
    (pos : 0 < x) :
    (base : Rat) ^ floorLog base log x ≤ x ∧ x < (base : Rat) ^ (floorLog base log x + 1) := by
  have ⟨low, high⟩ := between_candidates isLog pos
  simp only [floorLog]
  split
  · next le => exact ⟨le, high⟩
  · next not_le =>
    refine ⟨low, ?_⟩
    rw [Int.sub_add_cancel]
    exact Rat.not_le.mp not_le

end SelectionFormula
