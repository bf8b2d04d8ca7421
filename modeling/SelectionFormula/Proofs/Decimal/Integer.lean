import SelectionFormula.Proofs.Binary64.Exact
import SelectionFormula.Proofs.Decimal.Normal
import SelectionFormula.Proofs.Decimal.Unsigned

/-!
The text of an integer is its digits.

Below `2 ^ 53` the unit in the last place is at most one, so an integer's interval holds no
other integer, and the grids down to the ones are all integers (`shortest_of_small`). The
shortest decimal is therefore the integer itself, at most without the zeros at its end, and
these the layout puts back (`layout_of_integer`). At `2 ^ 53` it is the integer too, and there
this ends: the next integer is no number. So a number that is an integer of at most that size is
written as this integer (`text_of_integer`).
-/

namespace SelectionFormula

open Binary64 RoundingInterval

/-- A decimal that is an integer with few places is laid out as the integer's digits. -/
theorem layout_of_integer {d : Decimal} {k : Nat} (positive : 0 < d.digits)
    (exponent : d.exponent = k) (few : d.pointPosition ≤ 21) :
    layout d.significantDigits d.pointPosition = Nat.toDigits 10 (d.digits * 10 ^ k) := by
  obtain ⟨j, split⟩ := toDigits_eq_significantDigits d
  have places : d.pointPosition = d.significantDigits.length + (j + k : Nat) := by
    rw [Decimal.pointPosition, split, List.length_append, List.length_replicate, exponent]
    push_cast
    omega
  have fill : (d.pointPosition - d.significantDigits.length).toNat = j + k := by omega
  unfold layout
  rw [if_pos ⟨by omega, few⟩, zeros, fill, toDigits_mul_pow positive, split, List.append_assoc,
    List.replicate_append_replicate]

section Intervals

variable {m n : Nat} {q : Int}

theorem pos_of_integer (value : (m : Rat) * 2 ^ q = n) (positive : 0 < n) : 0 < m := by
  rcases Nat.eq_zero_or_pos m with rfl | some_bit
  · rw [Nat.cast_zero, zero_mul] at value
    exact absurd (by exact_mod_cast value.symm) positive.ne'
  · exact some_bit

/-- The unit in the last place of a small integer is at most one. -/
theorem exponent_le_of_integer (canonical : Canonical m q) (value : (m : Rat) * 2 ^ q = n)
    (few : n < 2 ^ 53) : q ≤ 0 := by
  by_contra large
  have full := full_le canonical (by omega)
  have two_le : (2 : Rat) ^ (1 : Int) ≤ 2 ^ q := zpow_le_zpow_right₀ (by norm_num) (by omega)
  have high : (n : Rat) < 2 ^ 53 := by exact_mod_cast few
  have := mul_le_mul full two_le (by positivity) (by positivity)
  rw [value] at this
  norm_num at this high
  linarith

/-- The interval of a small integer contains no other integer. -/
theorem integer_of_contains (value : (m : Rat) * 2 ^ q = n) (fine : q ≤ 0) {i : Int}
    (inside : (ofParts m q).contains i = true) : i = n := by
  have unit : (0 : Rat) < 2 ^ q := by positivity
  have unit_le : (2 : Rat) ^ q ≤ 1 := zpow_le_one_of_nonpos₀ (by norm_num) fine
  have gap_le := gap_le m q
  obtain ⟨low, high, -⟩ := contains_ofParts_iff.mp inside
  rw [le_div_iff₀ unit, sub_mul, value] at low
  rw [div_le_iff₀ unit, add_mul, value] at high
  have near : gap m q * 2 ^ q ≤ 1 / 2 :=
    calc
      gap m q * 2 ^ q ≤ 1 / 2 * 1 := mul_le_mul gap_le unit_le unit.le (by norm_num)
      _ = 1 / 2 := mul_one _
  have above : (n : Rat) < i + 1 := by linarith
  have below : (i : Rat) < n + 1 := by linarith
  have above' : (n : Int) < i + 1 := by exact_mod_cast above
  have below' : i < (n : Int) + 1 := by exact_mod_cast below
  omega

/-- The grid of the ones contains an integer. -/
theorem isSome_onGrid?_zero (value : (m : Rat) * 2 ^ q = n) :
    ((ofParts m q).onGrid? 0).isSome = true := by
  refine isSome_onGrid? (n := n) ?_ (.inl ?_)
  · rw [value_ofParts, value, zpow_zero, div_one]
    exact_mod_cast Rat.floor_intCast n
  · rw [zpow_zero, mul_one, ← value]
    exact contains_self m q

/-- The shortest decimal of a small integer is the integer, without places behind the point. -/
theorem shortest_of_small (canonical : Canonical m q) (value : (m : Rat) * 2 ^ q = n)
    (positive : 0 < n) (few : n < 2 ^ 53) :
    ∃ k : Nat, (shortest m q).exponent = k ∧ (shortest m q).digits * 10 ^ k = n := by
  have fine := exponent_le_of_integer canonical value few
  have some_bit := pos_of_integer value positive
  have one_le : (10 : Rat) ^ (0 : Int) ≤ n := by exact_mod_cast positive
  obtain ⟨-, high⟩ := floorLog_spec isNatLog_log10 (value_pos (q := q) some_bit)
  obtain ⟨i, found, coarser⟩ := exists_shortest canonical some_bit
  rw [value_ofParts, value] at high found coarser
  generalize floorLog 10 log10 (n : Rat) = leading at high found coarser
  have leading_nonneg : 0 < leading + 1 := by
    have := lt_of_le_of_lt one_le high
    exact (zpow_lt_zpow_iff_right₀ (by norm_num)).mp this
  -- No grid finer than that of the ones is tried.
  have reached : (i : Int) ≤ leading := by
    by_contra beyond
    have none := coarser leading.toNat (by omega)
    have ones := isSome_onGrid?_zero value
    rw [show leading - (leading.toNat : Int) = 0 by omega] at none
    rw [none] at ones
    cases ones
  obtain ⟨inside, exponent⟩ := contains_of_onGrid? found
  refine ⟨(leading - i).toNat, by omega, ?_⟩
  have integer : (shortest m q).toRat =
      (((shortest m q).digits * 10 ^ (leading - i).toNat : Nat) : Int) := by
    rw [Decimal.toRat, exponent, ← Int.toNat_of_nonneg (show 0 ≤ leading - i by omega)]
    push_cast
    rw [zpow_natCast, Int.toNat_natCast]
  rw [integer] at inside
  exact_mod_cast integer_of_contains value fine inside

theorem shortest_two_pow : shortest (1 <<< 52) 1 = ⟨2 ^ 53, 0⟩ := by
  decide +kernel

/-- So it is at `2 ^ 53`, although the unit in the last place is two there. -/
theorem shortest_of_integer (canonical : Canonical m q) (value : (m : Rat) * 2 ^ q = n)
    (positive : 0 < n) (few : n ≤ 2 ^ 53) :
    ∃ k : Nat, (shortest m q).exponent = k ∧ (shortest m q).digits * 10 ^ k = n := by
  rcases Nat.eq_or_lt_of_le few with rfl | few
  · have carry : Canonical (1 <<< 52) 1 := ⟨by decide, by decide, by decide, .inl (Nat.le_refl _)⟩
    have same : signedRat false m q = signedRat false (1 <<< 52) 1 := by
      simp only [signedRat, Bool.false_eq_true, if_false, value, Nat.shiftLeft_eq]
      norm_num
    obtain ⟨rfl, rfl⟩ := canonical_unique canonical carry same
    rw [shortest_two_pow]
    exact ⟨0, rfl, Nat.mul_one _⟩
  · exact shortest_of_small canonical value positive few

end Intervals

/-- The digits of an integer are a literal for it. -/
theorem number?_toDigits (n : Nat) :
    Literal.number? (Nat.toDigits 10 n) = some (Binary64.ofNat n) := by
  have all : Literal.AllDigits (Nat.toDigits 10 n) :=
    fun c mem => Nat.isDigit_of_mem_toDigits (by decide) (by decide) mem
  have some_digit : Nat.toDigits 10 n ≠ [] := List.ne_nil_of_length_pos Nat.length_toDigits_pos
  have plain : Literal.radix? (Nat.toDigits 10 n) = none :=
    radix?_eq_none fun c mem => .inl (all c mem)
  rw [Literal.number?_of_radix?_eq_none plain, decimal?_eq_rational?,
    Literal.rational?_whole all some_digit, Literal.natOfDigits, Nat.ofDigitChars_ten_toDigits]
  rfl

/-- The characters of an integer are its decimal digits. -/
theorem chars_of_integer {m n : Nat} {q : Int} (canonical : Canonical m q)
    (value : (m : Rat) * 2 ^ q = n) (few : n ≤ 2 ^ 53) :
    (Binary64.finite false m q canonical).chars = Nat.toDigits 10 n := by
  rcases Nat.eq_zero_or_pos n with rfl | positive
  · have none : m = 0 := by
      have unit : (2 : Rat) ^ q ≠ 0 := by positivity
      have := (mul_eq_zero.mp (value.trans Nat.cast_zero)).resolve_right unit
      exact_mod_cast this
    subst none
    rfl
  · have some_bit := pos_of_integer value positive
    obtain ⟨k, exponent, digits⟩ := shortest_of_integer canonical value positive few
    have some_digit := digits_shortest_pos canonical some_bit
    have places : (shortest m q).pointPosition ≤ 21 := by
      have count := (Nat.length_toDigits_le_iff (b := 10) (k := 21) (n := n) (by decide)
        (by decide)).mpr (few.trans_lt (by decide))
      rw [← digits, toDigits_mul_pow some_digit, List.length_append, List.length_replicate] at count
      rw [Decimal.pointPosition, exponent]
      omega
    rw [chars_finite false canonical some_bit, if_neg Bool.false_ne_true,
      layout_of_integer some_digit exponent places, digits]

theorem toString_neg {n : Nat} (positive : 0 < n) :
    toString (-n : Int) = String.ofList ('-' :: Nat.toDigits 10 n) := by
  obtain ⟨k, rfl⟩ : ∃ k, n = k + 1 := ⟨n - 1, by omega⟩
  refine String.toList_injective ?_
  change ("-" ++ Nat.repr (k + 1)).toList = _
  simp [Nat.repr]

/-- A number that is an integer up to `2 ^ 53` is written as this integer. -/
theorem text_of_integer {x : Binary64} {i : Int} (exact : x.toRat? = some (i : Rat))
    (few : i.natAbs ≤ 2 ^ 53) : x.text = toString i := by
  cases x with
  | nan => cases exact
  | infinite negative => cases exact
  | finite negative m q canonical =>
    have value : signedRat negative m q = i := Option.some.inj exact
    have size : (m : Rat) * 2 ^ q = i.natAbs := by
      rw [← abs_signedRat negative m q, value, Nat.cast_natAbs, Int.cast_abs]
    have digits := chars_of_integer canonical size few
    rcases Nat.eq_zero_or_pos m with rfl | some_bit
    · obtain rfl : i = 0 := by
        rw [Nat.cast_zero, zero_mul] at size
        exact Int.natAbs_eq_zero.mp (by exact_mod_cast size.symm)
      rw [Binary64.text, chars_zero]
      rfl
    have magnitude : (0 : Rat) < m * 2 ^ q := by positivity
    cases negative with
    | false =>
      have nonneg : 0 ≤ (i : Rat) := value ▸ magnitude.le
      obtain ⟨n, rfl⟩ := Int.eq_ofNat_of_zero_le (by exact_mod_cast nonneg)
      exact congrArg String.ofList digits
    | true =>
      have below : (i : Rat) < 0 := value ▸ neg_neg_of_pos magnitude
      have below : i < 0 := by exact_mod_cast below
      obtain ⟨n, rfl⟩ : ∃ n : Nat, i = -n := ⟨i.natAbs, by omega⟩
      rw [Int.natAbs_neg, Int.natAbs_natCast] at digits
      rw [toString_neg (by omega), Binary64.text, ← digits, chars_finite true canonical some_bit,
        chars_finite false canonical some_bit]
      rfl

/-- The text of an integer below `2 ^ 53` is its decimal digits. -/
theorem text_ofNat {n : Nat} (few : n < 2 ^ 53) : (Binary64.ofNat n).text = toString n :=
  text_of_integer (i := n) (toRat?_ofNat few.le) few.le

end SelectionFormula
