import Mathlib.Algebra.Order.Field.Power
import Mathlib.Data.Rat.Floor
import Mathlib.Tactic.FieldSimp
import Mathlib.Tactic.Linarith
import Mathlib.Tactic.NormNum
import Mathlib.Tactic.Positivity
import SelectionFormula.Decimal.Shortest

/-!
The reals that round to a number.

The interval of a number, half way to each neighbour, is what rounding takes to
that number: `round_of_contains` for the format and `ofRat_of_contains` for the
numbers. Just below a power of two the unit is half as large, and what is in the
interval there rounds up to the power with a carry. Two numbers are as far apart as the units of both ask
for (`units_apart`), so their intervals meet at most at an end (`intervals_apart`).
-/

namespace SelectionFormula

/-! ### Integers near a rational -/

theorem floor_eq {x : Rat} {n : Int} (low : (n : Rat) ≤ x) (high : x < n + 1) : x.floor = n := by
  have below : n ≤ x.floor := Rat.le_floor_iff.mpr low
  have above : x.floor < n + 1 := Rat.floor_lt_iff.mpr (by exact_mod_cast high)
  omega

/-- An integer within a half is the nearest one, and at a half when it is even. -/
theorem nearestInt_eq {n : Int} {x : Rat} (low : n - 1 / 2 ≤ x) (high : x ≤ n + 1 / 2)
    (tie : n % 2 = 0 ∨ n - 1 / 2 < x ∧ x < n + 1 / 2) : nearestInt x = n := by
  by_cases above : (n : Rat) ≤ x
  · have floor : x.floor = n := floor_eq above (by linarith)
    simp only [nearestInt, floor]
    split
    · rfl
    · next far =>
      rcases tie with even | ⟨-, strict⟩
      · rw [if_neg (by linarith), even, Int.add_zero]
      · exact absurd (by linarith) far
  · rw [not_le] at above
    have floor : x.floor = n - 1 :=
      floor_eq (by push_cast; linarith) (by push_cast; linarith)
    simp only [nearestInt, floor]
    push_cast
    rw [if_neg (by linarith)]
    split
    · omega
    · next near =>
      rcases tie with even | ⟨strict, -⟩
      · omega
      · exact absurd (by linarith) near

/-- The exponent between whose powers a rational lies is its logarithm. -/
theorem floorLog_eq {base : Nat} {log : Nat → Nat} (isLog : IsNatLog base log) {x : Rat} {k : Int}
    (low : (base : Rat) ^ k ≤ x) (high : x < (base : Rat) ^ (k + 1)) : floorLog base log x = k := by
  have one_lt : (1 : Rat) < base := by exact_mod_cast isLog.one_lt
  have pos : 0 < x := lt_of_lt_of_le (zpow_pos (by linarith) k) low
  obtain ⟨low', high'⟩ := floorLog_spec isLog pos
  have below := (zpow_lt_zpow_iff_right₀ one_lt).mp (lt_of_le_of_lt low high')
  have above := (zpow_lt_zpow_iff_right₀ one_lt).mp (lt_of_le_of_lt low' high)
  omega

/-! ### The interval of a number -/

namespace RoundingInterval

theorem contains_iff {interval : RoundingInterval} {x : Rat} :
    interval.contains x = true ↔ interval.low ≤ x ∧ x ≤ interval.high ∧
      (interval.closed = true ∨ interval.low < x ∧ x < interval.high) := by
  cases closed : interval.closed
  · simp only [contains, closed, Bool.false_eq_true, if_false, Bool.and_eq_true, decide_eq_true_eq,
      false_or]
    constructor
    · rintro ⟨low, high⟩
      exact ⟨low.le, high.le, low, high⟩
    · exact fun ⟨_, _, strict⟩ => strict
  · simp [contains, closed]

end RoundingInterval

open Binary64 RoundingInterval

variable {m : Nat} {q : Int} {x : Rat}

/-- How far below a number its interval goes, in units of the last place. -/
def gap (m : Nat) (q : Int) : Rat :=
  if m = 1 <<< 52 ∧ q ≠ -1074 then 1 / 4 else 1 / 2

theorem gap_pos (m : Nat) (q : Int) : 0 < gap m q := by
  unfold gap
  split <;> norm_num

theorem gap_le (m : Nat) (q : Int) : gap m q ≤ 1 / 2 := by
  unfold gap
  split <;> norm_num

theorem gap_of_ne (other : m ≠ 1 <<< 52) (q : Int) : gap m q = 1 / 2 :=
  if_neg fun power => other power.1

/-- A number above the least exponent has all its bits. -/
theorem full_le (canonical : Canonical m q) (above : q ≠ -1074) : (2 : Rat) ^ 52 ≤ m := by
  have : 2 ^ 52 ≤ m := canonical.full_or_least.resolve_right above
  exact_mod_cast this

/-- The interval in units of the last place. -/
theorem contains_ofParts_iff : (ofParts m q).contains x = true ↔
    m - gap m q ≤ x / 2 ^ q ∧ x / 2 ^ q ≤ m + 1 / 2 ∧
      (m % 2 = 0 ∨ m - gap m q < x / 2 ^ q ∧ x / 2 ^ q < m + 1 / 2) := by
  have unit : (0 : Rat) < 2 ^ q := by positivity
  have high : (ofParts m q).high = (m + 1 / 2) * 2 ^ q := by
    simp only [ofParts]
    ring
  have low : (ofParts m q).low = (m - gap m q) * 2 ^ q := by
    simp only [ofParts, gap]
    change _ - (if m = 1 <<< 52 ∧ q ≠ -1074 then _ else _) = _
    split <;> ring
  have closed : (ofParts m q).closed = true ↔ m % 2 = 0 := by simp [ofParts]
  rw [contains_iff, low, high, closed, le_div_iff₀ unit, div_le_iff₀ unit, lt_div_iff₀ unit,
    div_lt_iff₀ unit]

theorem pos_of_contains (positive : 0 < m) (inside : (ofParts m q).contains x = true) : 0 < x := by
  obtain ⟨low, -, -⟩ := contains_ofParts_iff.mp inside
  have unit : (0 : Rat) < 2 ^ q := by positivity
  have one_le : (1 : Rat) ≤ m := by exact_mod_cast positive
  have gap_le := gap_le m q
  have := mul_pos (show 0 < x / 2 ^ q by linarith) unit
  rwa [div_mul_cancel₀ x unit.ne'] at this

/-- The unit that rounding works in, told by how many bits of it a number has. -/
theorem quantum_eq (pos : 0 < x) (least : -1074 ≤ q) (below : x / 2 ^ q < 2 ^ 53)
    (full : q = -1074 ∨ 2 ^ 52 ≤ x / 2 ^ q) : Format.binary64.quantum x = q := by
  have unit : (0 : Rat) < 2 ^ q := by positivity
  obtain ⟨low, high⟩ := floorLog_spec isNatLog_log2 pos
  rw [Nat.cast_ofNat] at low high
  have one_lt : (1 : Rat) < 2 := by norm_num
  have upper : floorLog 2 Nat.log2 x < 53 + q := by
    rw [div_lt_iff₀ unit, ← zpow_natCast, ← zpow_add₀ (by norm_num)] at below
    exact (zpow_lt_zpow_iff_right₀ one_lt).mp (lt_of_le_of_lt low below)
  have lower : q = -1074 ∨ 52 + q < floorLog 2 Nat.log2 x + 1 := by
    refine full.imp_right fun full => ?_
    rw [le_div_iff₀ unit, ← zpow_natCast, ← zpow_add₀ (by norm_num)] at full
    exact (zpow_lt_zpow_iff_right₀ one_lt).mp (lt_of_le_of_lt full high)
  change max (-1074) (floorLog 2 Nat.log2 x + 1 - 53) = q
  omega

theorem round_eq (pos : 0 < x) (least : -1074 ≤ q) (below : x / 2 ^ q < 2 ^ 53)
    (full : q = -1074 ∨ 2 ^ 52 ≤ x / 2 ^ q) (nearest : nearestInt (x / 2 ^ q) = m) :
    Format.binary64.round x = if m = 1 <<< 53 then (1 <<< 52, q + 1) else (m, q) := by
  rw [Format.round, quantum_eq pos least below full, nearest]
  rfl

/-- In the halved unit the significand of what is just below a power of two rounds up to
one bit too many, which rounding takes back. -/
theorem round_below_power (pos : 0 < x) (least : -1074 < q) (low : 2 ^ 52 - 1 / 4 ≤ x / 2 ^ q)
    (short : x / 2 ^ q < 2 ^ 52) : Format.binary64.round x = (1 <<< 52, q) := by
  have halved : x / 2 ^ (q - 1) = 2 * (x / 2 ^ q) := by
    rw [zpow_sub_one₀ (by norm_num)]
    field_simp
  have nearest : nearestInt (x / 2 ^ (q - 1)) = (1 <<< 53 : Nat) := by
    have carry : ((1 <<< 53 : Nat) : Int) = 2 ^ 53 := rfl
    rw [halved, carry]
    refine nearestInt_eq ?_ ?_ (.inl (by norm_num)) <;> push_cast <;> linarith
  have below : x / 2 ^ (q - 1) < 2 ^ 53 := by
    rw [halved]
    linarith
  have full : 2 ^ 52 ≤ x / 2 ^ (q - 1) := by
    rw [halved]
    linarith
  rw [round_eq pos (by omega) below (.inr full) nearest, if_pos rfl, Int.sub_add_cancel]

/-- What the interval of a number contains rounds to it. -/
theorem round_of_contains (canonical : Canonical m q) (positive : 0 < m)
    (inside : (ofParts m q).contains x = true) : Format.binary64.round x = (m, q) := by
  obtain ⟨low, high, tie⟩ := contains_ofParts_iff.mp inside
  obtain ⟨bits, least, -, full⟩ := canonical
  have pos := pos_of_contains positive inside
  have bits' : (m : Rat) + 1 ≤ 2 ^ 53 := by exact_mod_cast bits
  have gap_le := gap_le m q
  by_cases regular : q = -1074 ∨ 2 ^ 52 ≤ x / 2 ^ q
  · have nearest : nearestInt (x / 2 ^ q) = m := by
      apply nearestInt_eq
      · push_cast
        linarith
      · exact_mod_cast high
      · rcases tie with even | ⟨low, high⟩
        · exact .inl (by exact_mod_cast even)
        · exact .inr ⟨by push_cast; linarith, by exact_mod_cast high⟩
    rw [round_eq pos least (by linarith) regular nearest, if_neg (by omega)]
  · obtain ⟨above, short⟩ := not_or.mp regular
    rw [not_le] at short
    have power : m = 1 <<< 52 := by
      by_contra other
      have more : 2 ^ 52 + 1 ≤ m := by
        have := full.resolve_right above
        omega
      have : (2 : Rat) ^ 52 + 1 ≤ m := by exact_mod_cast more
      linarith
    have quarter : gap m q = 1 / 4 := if_pos ⟨power, above⟩
    have bits_eq : (m : Rat) = 2 ^ 52 := by
      rw [power.trans (Nat.shiftLeft_eq 1 52), Nat.one_mul]
      push_cast
      rfl
    rw [quarter, bits_eq] at low
    rw [round_below_power pos (by omega) low short, power]

/-- A greater number is at least a unit of the smaller one away, and at least twice as far as its
own interval goes down. -/
theorem units_apart (canonical : Canonical m q) {n : Nat} {r : Int} (canonical' : Canonical n r)
    (less : (m : Rat) * 2 ^ q < n * 2 ^ r) :
    m * 2 ^ q + 2 ^ q ≤ (n : Rat) * 2 ^ r ∧ m * 2 ^ q + 2 * gap n r * 2 ^ r ≤ (n : Rat) * 2 ^ r := by
  have unit : (0 : Rat) < 2 ^ q := by positivity
  have unit' : (0 : Rat) < 2 ^ r := by positivity
  have gap_le := gap_le n r
  rcases lt_trichotomy q r with finer | rfl | coarser
  · -- Half the unit or less: the next power of two is where the smaller number's bits end.
    have above : r ≠ -1074 := by
      have := canonical.least_le
      omega
    have full := full_le canonical' above
    have start : (2 : Rat) ^ 52 - 1 / 2 ≤ n - 2 * gap n r := by
      by_cases power : n = 1 <<< 52
      · rw [show gap n r = 1 / 4 from if_pos ⟨power, above⟩]
        linarith
      · have : 2 ^ 52 + 1 ≤ n := by
          have := canonical'.full_or_least.resolve_right above
          omega
        have : (2 : Rat) ^ 52 + 1 ≤ n := by exact_mod_cast this
        linarith
    have bits : (m : Rat) + 1 ≤ 2 ^ 53 := by exact_mod_cast canonical.significand_lt
    have halved : (2 : Rat) ^ q ≤ 2 ^ r / 2 := by
      rw [div_eq_mul_inv, ← zpow_sub_one₀ (by norm_num)]
      exact zpow_le_zpow_right₀ (by norm_num) (by omega)
    constructor
    · calc
        (m * 2 ^ q + 2 ^ q : Rat) = (m + 1) * 2 ^ q := by ring
        _ ≤ 2 ^ 53 * (2 ^ r / 2) := mul_le_mul bits halved unit.le (by norm_num)
        _ = 2 ^ 52 * 2 ^ r := by ring
        _ ≤ n * 2 ^ r := mul_le_mul_of_nonneg_right full unit'.le
    · calc
        m * 2 ^ q + 2 * gap n r * 2 ^ r ≤ (2 ^ 53 - 1) * (2 ^ r / 2) + 2 * gap n r * 2 ^ r := by
          gcongr
          linarith
        _ = (2 ^ 52 - 1 / 2 + 2 * gap n r) * 2 ^ r := by ring
        _ ≤ n * 2 ^ r := mul_le_mul_of_nonneg_right (by linarith) unit'.le
  · have next : m + 1 ≤ n := by exact_mod_cast lt_of_mul_lt_mul_right less unit.le
    have next : (m : Rat) + 1 ≤ n := by exact_mod_cast next
    constructor <;> nlinarith
  · -- Twice the unit or more would make the first number the greater one.
    exfalso
    have full := full_le canonical (by have := canonical'.least_le; omega)
    have bits : (n : Rat) < 2 ^ 53 := by exact_mod_cast canonical'.significand_lt
    have doubled : 2 ^ r * 2 ≤ (2 : Rat) ^ q := by
      rw [← zpow_add_one₀ (by norm_num)]
      exact zpow_le_zpow_right₀ (by norm_num) (by omega)
    have := mul_le_mul full doubled (by positivity) (by positivity)
    nlinarith

/-- The interval of a number ends no later than that of a greater number begins. -/
theorem intervals_apart (canonical : Canonical m q) {n : Nat} {r : Int} (canonical' : Canonical n r)
    (less : (m : Rat) * 2 ^ q < n * 2 ^ r) : (m + 1 / 2 : Rat) * 2 ^ q ≤ (n - gap n r) * 2 ^ r := by
  obtain ⟨above, below⟩ := units_apart canonical canonical' less
  linarith

/-- What the interval of a number contains is rounded to that number. -/
theorem ofRat_of_contains (canonical : Canonical m q) (positive : 0 < m)
    (inside : (ofParts m q).contains x = true) :
    Binary64.ofRat false x = .finite false m q canonical := by
  have pos := pos_of_contains positive inside
  have rounded := round_of_contains canonical positive inside
  have abs_eq : x.abs = x := Rat.abs_of_nonneg pos.le
  have fits : (Format.binary64.round x.abs).2 ≤ 971 := by
    rw [abs_eq, rounded]
    exact canonical.le_greatest
  rw [Binary64.ofRat, dif_neg pos.ne', dif_pos fits]
  simp only [abs_eq, rounded, not_lt.mpr pos.le, decide_false]

end SelectionFormula
