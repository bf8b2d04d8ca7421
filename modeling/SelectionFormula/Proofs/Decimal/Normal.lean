import Mathlib.Data.List.DropRight
import SelectionFormula.Proofs.Decimal.ReadBack

/-!
Digits without zeros at their ends.

A positive number that has a decimal is `0.d₁…dₖ × 10 ^ point` for one choice of digits with no
zero at either end and one point (`NormalDigits.unique`). The significant digits of a decimal are
these (`normal_significantDigits`), and so is what is left of any text that denotes the number when
its point and exponent are told apart from the digits and the zeros at both ends are taken off
(`normal_normalized`).
-/

namespace SelectionFormula

open Literal

/-! ### Digits and what they spell -/

theorem digitChar_of_isDigit {c : Char} (digit : c.isDigit = true) :
    c.toNat - '0'.toNat < 10 ∧ (c.toNat - '0'.toNat).digitChar = c := by
  obtain ⟨low, high⟩ := isDigit_iff.mp digit
  have small : c.toNat - '0'.toNat < 10 := by
    change c.toNat - 48 < 10
    omega
  refine ⟨small, Char.toNat_inj.mp ?_⟩
  rw [Nat.toNat_digitChar_of_lt_ten small]
  change 48 + (c.toNat - 48) = c.toNat
  omega

/-- Digits behind a positive number's digits are the digits of what both spell. -/
theorem toDigits_ofDigitChars {later : List Char} (all : AllDigits later) {n : Nat}
    (positive : 0 < n) :
    Nat.toDigits 10 (Nat.ofDigitChars 10 later n) = Nat.toDigits 10 n ++ later := by
  induction later generalizing n with
  | nil => simp
  | cons c later ih =>
    obtain ⟨digit, all⟩ := List.forall_mem_cons.mp all
    obtain ⟨small, same⟩ := digitChar_of_isDigit digit
    have one : Nat.toDigits 10 n ++ [c] = Nat.toDigits 10 (10 * n + (c.toNat - '0'.toNat)) := by
      rw [← Nat.toDigits_append_toDigits (by decide) positive small, Nat.toDigits_of_lt_base small,
        same]
    rw [Nat.ofDigitChars_cons, ih all (by omega), ← one, List.append_assoc, List.singleton_append]

/-- Digits that do not begin with a zero are the digits of the number that they spell. -/
theorem toDigits_natOfDigits {digits : List Char} (all : AllDigits digits)
    (nonempty : digits ≠ []) (head : digits.head? ≠ some '0') :
    Nat.toDigits 10 (natOfDigits digits) = digits := by
  obtain ⟨first, later, rfl⟩ := List.exists_cons_of_ne_nil nonempty
  obtain ⟨digit, all⟩ := List.forall_mem_cons.mp all
  obtain ⟨small, same⟩ := digitChar_of_isDigit digit
  have positive : 0 < first.toNat - '0'.toNat := by
    rw [Nat.pos_iff_ne_zero]
    intro zero
    rw [zero] at same
    exact head (congrArg some same.symm)
  rw [natOfDigits, Nat.ofDigitChars_cons, Nat.mul_zero, Nat.zero_add,
    toDigits_ofDigitChars all positive, Nat.toDigits_of_lt_base small, same, List.singleton_append]

/-- The digits of a positive number do not begin with a zero. -/
theorem head?_toDigits {n : Nat} (positive : 0 < n) : (Nat.toDigits 10 n).head? ≠ some '0' := by
  induction n using Nat.strongRecOn with
  | ind n ih =>
    rcases Nat.lt_or_ge n 10 with small | large
    · rw [Nat.toDigits_of_lt_base small]
      simpa using positive.ne'
    · rw [Nat.toDigits_of_base_le (by decide) large,
        List.head?_append_of_ne_nil _ Nat.toDigits_ne_nil]
      exact ih (n / 10) (by omega) (by omega)

/-- A power of ten behind a number is that many zeros behind its digits. -/
theorem toDigits_mul_pow {n : Nat} (positive : 0 < n) (k : Nat) :
    Nat.toDigits 10 (n * 10 ^ k) = Nat.toDigits 10 n ++ List.replicate k '0' := by
  have all : AllDigits (List.replicate k '0') := allDigits_zeros k
  rw [← toDigits_ofDigitChars all positive, Nat.ofDigitChars_replicate_zero, Nat.mul_comm]

/-! ### The normal form -/

/-- Digits without a zero at either end, which behind a point at a position stand for a value:
`0.d₁…dₖ × 10 ^ point`. -/
structure NormalDigits (digits : List Char) (point : Int) (value : Rat) : Prop where
  allDigits : AllDigits digits
  nonempty : digits ≠ []
  head : digits.head? ≠ some '0'
  last : digits.getLast? ≠ some '0'
  value_eq : value = natOfDigits digits * 10 ^ (point - digits.length)

namespace NormalDigits

variable {digits digits' : List Char} {point point' : Int} {value : Rat}

theorem toDigits_eq (normal : NormalDigits digits point value) :
    Nat.toDigits 10 (natOfDigits digits) = digits :=
  toDigits_natOfDigits normal.allDigits normal.nonempty normal.head

theorem natOfDigits_pos (normal : NormalDigits digits point value) : 0 < natOfDigits digits := by
  rw [Nat.pos_iff_ne_zero]
  intro zero
  have same := normal.toDigits_eq
  rw [zero, Nat.toDigits_zero] at same
  exact normal.head (same ▸ rfl)

/-- The value lies between the powers of ten at the point and in front of it. -/
theorem bounds (normal : NormalDigits digits point value) :
    (10 : Rat) ^ (point - 1) ≤ value ∧ value < 10 ^ point := by
  have spelled := @pointPosition_bounds ⟨natOfDigits digits, point - digits.length⟩
    normal.natOfDigits_pos
  have place : Decimal.pointPosition ⟨natOfDigits digits, point - digits.length⟩ = point := by
    rw [Decimal.pointPosition, normal.toDigits_eq]
    exact add_sub_cancel (digits.length : Int) point
  rw [place] at spelled
  rwa [normal.value_eq]

/-- Digits that spell the same number but for zeros behind it are the same when neither ends
with one. -/
theorem eq_of_mul_pow (normal : NormalDigits digits point value)
    (normal' : NormalDigits digits' point' value) {k : Nat}
    (same : natOfDigits digits' = natOfDigits digits * 10 ^ k) : digits' = digits := by
  have split : digits' = digits ++ List.replicate k '0' := by
    rw [← normal'.toDigits_eq, same, toDigits_mul_pow normal.natOfDigits_pos, normal.toDigits_eq]
  cases k with
  | zero => simpa using split
  | succ k =>
    refine absurd ?_ normal'.last
    rw [split, List.replicate_succ', ← List.append_assoc, List.getLast?_concat]

/-- A value has one normal form. -/
theorem unique (normal : NormalDigits digits point value)
    (normal' : NormalDigits digits' point' value) : digits = digits' ∧ point = point' := by
  obtain ⟨low, high⟩ := normal.bounds
  obtain ⟨low', high'⟩ := normal'.bounds
  have one_lt : (1 : Rat) < 10 := by norm_num
  have before := (zpow_lt_zpow_iff_right₀ one_lt).mp (lt_of_le_of_lt low high')
  have behind := (zpow_lt_zpow_iff_right₀ one_lt).mp (lt_of_le_of_lt low' high)
  obtain rfl : point = point' := by omega
  refine ⟨?_, rfl⟩
  have values := normal.value_eq.symm.trans normal'.value_eq
  -- The longer digits spell the shorter ones' number with zeros behind it.
  have shifted : ∀ {a b : List Char}, a.length ≤ b.length →
      (natOfDigits a * 10 ^ (point - a.length) : Rat) = natOfDigits b * 10 ^ (point - b.length) →
      natOfDigits b = natOfDigits a * 10 ^ (b.length - a.length) := by
    intro a b le same
    have step : (0 : Rat) < 10 ^ (point - b.length) := by positivity
    have places : point - a.length = (b.length - a.length : Nat) + (point - b.length) := by omega
    rw [places, zpow_add₀ (by norm_num), ← mul_assoc, zpow_natCast] at same
    exact_mod_cast (mul_right_cancel₀ step.ne' same).symm
  rcases Nat.le_total digits.length digits'.length with le | le
  · exact (normal.eq_of_mul_pow normal' (shifted le values)).symm
  · exact normal'.eq_of_mul_pow normal (shifted le values.symm)

end NormalDigits

/-- What is left without the zeros at the end does not end with one. -/
theorem getLast?_rdropWhile {digits : List Char} (nonempty : digits.rdropWhile (· == '0') ≠ []) :
    (digits.rdropWhile (· == '0')).getLast? ≠ some '0' := by
  intro last
  rw [List.getLast?_eq_some_getLast nonempty, Option.some.injEq] at last
  exact List.rdropWhile_last_not (· == '0') digits nonempty (beq_iff_eq.mpr last)

/-- The significant digits of a decimal and its point are its normal form. -/
theorem normal_significantDigits {d : Decimal} (positive : 0 < d.digits) :
    NormalDigits d.significantDigits d.pointPosition d.toRat := by
  have nonempty := significantDigits_ne_nil positive
  obtain ⟨j, split⟩ := toDigits_eq_significantDigits d
  refine ⟨allDigits_significantDigits d, nonempty, ?_, getLast?_rdropWhile nonempty,
    toRat_eq_significantDigits d⟩
  rw [← List.head?_append_of_ne_nil _ nonempty, ← split]
  exact head?_toDigits positive

/-! ### What is left of a printed decimal -/

theorem stripped_eq (digits : List Char) :
    stripped digits = (digits.dropWhile (· == '0')).rdropWhile (· == '0') :=
  rfl

/-- Digits are zeros, what is left without them, and zeros. -/
theorem exists_of_stripped (digits : List Char) : ∃ k : Nat,
    digits = zeros (digits.takeWhile (· == '0')).length ++ (stripped digits ++ zeros k) := by
  have front : ∀ c ∈ digits.takeWhile (· == '0'), c = '0' :=
    fun c mem => beq_iff_eq.mp (List.mem_takeWhile_imp (p := (· == '0')) mem)
  have back : ∀ c ∈ (digits.dropWhile (· == '0')).rtakeWhile (· == '0'), c = '0' :=
    fun c mem => beq_iff_eq.mp (List.mem_rtakeWhile_imp (p := (· == '0')) mem)
  refine ⟨((digits.dropWhile (· == '0')).rtakeWhile (· == '0')).length, ?_⟩
  rw [zeros, zeros, Int.toNat_natCast, Int.toNat_natCast, ← List.eq_replicate_of_mem front,
    ← List.eq_replicate_of_mem back, stripped_eq, List.rdropWhile_append_rtakeWhile,
    List.takeWhile_append_dropWhile]

theorem head?_stripped {digits : List Char} (nonempty : stripped digits ≠ []) :
    (stripped digits).head? ≠ some '0' := by
  intro head
  obtain ⟨back, split⟩ := List.rdropWhile_prefix (· == '0') (digits.dropWhile (· == '0'))
  have first := List.head?_dropWhile_not (· == '0') digits
  rw [← split, ← stripped_eq, List.head?_append_of_ne_nil _ nonempty, head] at first
  cases first

/-- What is left of digits that do not spell zero is their normal form, behind the point that
they had less the zeros in front. -/
theorem normal_stripped {digits : List Char} (all : AllDigits digits)
    (some_value : natOfDigits digits ≠ 0) (point : Int) :
    NormalDigits (stripped digits) (point - (digits.takeWhile (· == '0')).length)
      (natOfDigits digits * 10 ^ (point - digits.length)) := by
  obtain ⟨k, split⟩ := exists_of_stripped digits
  have head := @head?_stripped digits
  have last : stripped digits ≠ [] → (stripped digits).getLast? ≠ some '0' := getLast?_rdropWhile
  generalize stripped digits = core at split head last ⊢
  generalize (digits.takeWhile (· == '0')).length = j at split ⊢
  subst split
  rw [natOfDigits_zeros_append, natOfDigits_append_zeros, Int.toNat_natCast] at some_value ⊢
  have nonempty : core ≠ [] := by
    rintro rfl
    exact some_value (Nat.mul_zero _)
  refine ⟨fun c mem => all c (by simp [mem]), nonempty, head nonempty, last nonempty, ?_⟩
  have places : point - j - core.length =
      k + (point - (zeros j ++ (core ++ zeros k)).length) := by
    simp only [List.length_append, zeros, List.length_replicate, Int.toNat_natCast]
    push_cast
    omega
  rw [places, zpow_add₀ (by norm_num), zpow_natCast]
  push_cast
  ring

theorem ne_of_isDigit {c other : Char} (digit : c.isDigit = true) (letter : other.isDigit = false) :
    c ≠ other := by
  rintro rfl
  rw [digit] at letter
  cases letter

/-- A text that denotes a number other than zero is normalized to the number's normal form. -/
theorem normal_normalized {printed : List Char} {value : Rat}
    (denoted : rational? printed = some value) (nonzero : value ≠ 0) :
    NormalDigits (normalized printed).1 (normalized printed).2 value := by
  obtain ⟨⟨digits, place⟩, parts, rfl⟩ := Option.map_eq_some_iff.mp denoted
  obtain ⟨whole, point, part, tail, e, rfl, hw, hp, pointed, some_digit, exponent, rfl, rfl⟩ :=
    exists_of_decimalParts? parts
  have all := hw.append hp
  have some_value : natOfDigits (whole ++ part) ≠ 0 := by
    intro zero
    simp [zero] at nonzero
  have firm : ∀ c ∈ whole ++ point ++ part, (!(c == 'e' || c == 'E')) = true := by
    intro c mem
    rcases plain_of_mantissa hw hp pointed c mem with digit | rfl
    · have small : c ≠ 'e' := ne_of_isDigit digit rfl
      have capital : c ≠ 'E' := ne_of_isDigit digit rfl
      simp [small, capital]
    · rfl
  have mantissa : (whole ++ point ++ part ++ tail).takeWhile (fun c => !(c == 'e' || c == 'E')) =
      whole ++ point ++ part := by
    rw [List.takeWhile_append_of_pos firm]
    rcases exists_of_exponent? exponent with rfl | ⟨letter, sign, text, rfl, rfl | rfl, -⟩ <;> simp
  have kept : ∀ {run : List Char}, AllDigits run → ∀ c ∈ run, (c != '.') = true :=
    fun all c mem => bne_iff_ne.mpr (ne_of_isDigit (all c mem) rfl)
  have digits : (whole ++ point ++ part).filter (· != '.') = whole ++ part := by
    rw [List.filter_append, List.filter_append, List.filter_eq_self.mpr (kept hw),
      List.filter_eq_self.mpr (kept hp)]
    rcases pointed with rfl | ⟨rfl, -⟩ <;> simp
  have front : (whole ++ point ++ part).takeWhile (· != '.') = whole := by
    rw [List.append_assoc, List.takeWhile_append_of_pos (kept hw)]
    rcases pointed with rfl | ⟨rfl, rfl⟩ <;> simp
  have normal := normal_stripped all some_value (whole.length + e)
  have places : (whole.length : Int) + e - (whole ++ part).length = e - part.length := by
    rw [List.length_append]
    push_cast
    omega
  rw [places] at normal
  simp only [normalized, mantissa, digits, front, List.drop_left, exponent, Option.getD_some]
  exact normal

end SelectionFormula
