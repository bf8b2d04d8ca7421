import SelectionFormula.Proofs.Decimal.Grammar
import SelectionFormula.Proofs.Decimal.Integer

/-!
What the spelling of an integer does to its value.

The digits of a radix literal are added up in binary64, rounding at every digit. That is exact while
the sum is below `2 ^ 53`, and the digit that carries it beyond is rounded (`pushDigit_small`). From
there on a digit is less than half a unit in the last place and only moves the others up
(`pushDigit_large`), as a multiplication by a power of two rounds nothing (`ofNat_mul_two_pow`). So
the literal has the value nearest to its first digits with zeros behind them (`kept`,
`RadixForm.number?_eq`). The zeros matter in one case: they may make a tie that is rounded down where
the digits do not (`ofNat_kept_ne_iff`). A decimal literal is rounded once, from all of its digits,
and the two spellings of an integer may have different values (`value_of_spelling`,
`radix_literal_not_nearest`).
-/

namespace SelectionFormula

open Binary64 RoundingInterval Literal

/-! ### Powers of two -/

section Scaling

variable {m k : Nat} {q : Int} {x y d : Rat}

/-- What is near a significand with all its bits is as near to it behind more places. -/
theorem contains_scaled (above : -1074 < q) (inside : (ofParts m q).contains x = true) (k : Nat) :
    (ofParts m (q + k)).contains (x * 2 ^ k) = true := by
  have same : x * 2 ^ k / 2 ^ (q + k) = x / 2 ^ q := by
    rw [zpow_add₀ (by norm_num), zpow_natCast, mul_div_mul_right _ _ (by positivity)]
  have reach : gap m (q + k) = gap m q :=
    if_congr (and_congr_right fun _ => iff_of_true (by omega) (by omega)) rfl rfl
  rw [contains_ofParts_iff] at inside ⊢
  rwa [same, reach]

theorem pos_of_full (full : (2 : Rat) ^ 52 ≤ m) : 0 < m := by
  have bits : 2 ^ 52 ≤ m := by exact_mod_cast full
  omega

/-- A significand with all its bits may stand behind more places, up to the greatest exponent. -/
theorem canonical_shifted (canonical : Canonical m q) (above : -1074 < q) (fits : q + k ≤ 971) :
    Canonical m (q + k) :=
  ⟨canonical.significand_lt, by omega, fits, .inl (canonical.full_or_least.resolve_right (by omega))⟩

/-- What has an integer in its interval has all bits of its significand. -/
theorem least_lt_of_contains (canonical : Canonical m q) (one_le : 1 ≤ x)
    (inside : (ofParts m q).contains x = true) : -1074 < q := by
  obtain ⟨-, high, -⟩ := contains_ofParts_iff.mp inside
  have bits : (m : Rat) + 1 ≤ 2 ^ 53 := by exact_mod_cast canonical.significand_lt
  have unit : (0 : Rat) < 2 ^ q := by positivity
  rw [div_le_iff₀ unit] at high
  by_contra least
  have fine : (2 : Rat) ^ q ≤ 2 ^ (-53 : Int) := zpow_le_zpow_right₀ (by norm_num) (by omega)
  have product : (2 : Rat) ^ 53 * 2 ^ (-53 : Int) = 1 := by norm_num
  have : (m + 1 / 2 : Rat) * 2 ^ q < 2 ^ 53 * 2 ^ q := mul_lt_mul_of_pos_right (by linarith) unit
  have := mul_le_mul_of_nonneg_left fine (by norm_num : (0 : Rat) ≤ 2 ^ 53)
  linarith

/-- What is too great for 53 bits has a great unit in its last place. -/
theorem lt_exponent_of_contains (canonical : Canonical m q) (large : 2 ^ 53 * 2 ^ k ≤ x)
    (inside : (ofParts m q).contains x = true) : (k : Int) < q := by
  obtain ⟨-, high, -⟩ := contains_ofParts_iff.mp inside
  have unit : (0 : Rat) < 2 ^ q := by positivity
  have bits : (m : Rat) + 1 ≤ 2 ^ 53 := by exact_mod_cast canonical.significand_lt
  by_contra fine
  have unit_le : (2 : Rat) ^ q ≤ 2 ^ (k : Int) := zpow_le_zpow_right₀ (by norm_num) (by omega)
  refine lt_irrefl x ?_
  calc
    x ≤ (m + 1 / 2) * 2 ^ q := (div_le_iff₀ unit).mp high
    _ < 2 ^ 53 * 2 ^ q := mul_lt_mul_of_pos_right (by linarith) unit
    _ ≤ 2 ^ 53 * 2 ^ k := mul_le_mul_of_nonneg_left (by rwa [zpow_natCast] at unit_le) (by norm_num)
    _ ≤ x := large

/-- Less than half a unit in the last place is lost behind a number. -/
theorem contains_add (m : Nat) (nonneg : 0 ≤ d) (small : d < 2 ^ q / 2) :
    (ofParts m q).contains (m * 2 ^ q + d) = true := by
  have unit : (0 : Rat) < 2 ^ q := by positivity
  have gap_pos := gap_pos m q
  have above : 0 ≤ d / 2 ^ q := by positivity
  have below : d / 2 ^ q < 1 / 2 := (div_lt_iff₀ unit).mpr (by linarith)
  rw [contains_ofParts_iff, add_div, mul_div_cancel_right₀ _ unit.ne']
  exact ⟨by linarith, by linarith, .inr ⟨by linarith, by linarith⟩⟩

/-- A significand with all its bits behind too many places stands for nothing finite. -/
theorem overflow_le_of_contains (full : (2 : Rat) ^ 52 ≤ m) (large : 971 < q)
    (inside : (ofParts m q).contains x = true) : overflow ≤ x := by
  obtain ⟨low, -, -⟩ := contains_ofParts_iff.mp inside
  have unit : (0 : Rat) < 2 ^ q := by positivity
  rw [le_div_iff₀ unit] at low
  have coarse : lastUnit * 2 ≤ 2 ^ q := by
    rw [lastUnit, ← zpow_add_one₀ (by norm_num)]
    exact zpow_le_zpow_right₀ (by norm_num) (by omega)
  have reach : (2 : Rat) ^ 52 - 1 / 4 ≤ m - gap m q := by
    by_cases power : m = 1 <<< 52
    · have : gap m q = 1 / 4 := if_pos ⟨power, by omega⟩
      linarith
    · have more : 2 ^ 52 + 1 ≤ m := by
        have : 2 ^ 52 ≤ m := by exact_mod_cast full
        have : m ≠ 2 ^ 52 := power
        omega
      have more' : (2 : Rat) ^ 52 + 1 ≤ m := by exact_mod_cast more
      have := gap_le m q
      linarith
  calc
    overflow = (2 ^ 52 - 1 / 4) * (lastUnit * 2) := by
      rw [overflow]
      ring
    _ ≤ (2 ^ 52 - 1 / 4) * 2 ^ q := mul_le_mul_of_nonneg_left coarse (by norm_num)
    _ ≤ (m - gap m q) * 2 ^ q := mul_le_mul_of_nonneg_right reach unit.le
    _ ≤ x := low

/-- What is rounded to the same number still is when both are multiplied by a power of two. -/
theorem ofRat_mul_two_pow_congr (canonical : Canonical m q) (above : -1074 < q)
    (hx : (ofParts m q).contains x = true) (hy : (ofParts m q).contains y = true) (k : Nat) :
    ofRat false (x * 2 ^ k) = ofRat false (y * 2 ^ k) := by
  have full := full_le canonical (by omega)
  have positive := pos_of_full full
  by_cases fits : q + k ≤ 971
  · have shifted := canonical_shifted canonical above fits
    rw [ofRat_of_contains shifted positive (contains_scaled above hx k),
      ofRat_of_contains shifted positive (contains_scaled above hy k)]
  · have infinite : ∀ {z : Rat}, (ofParts m q).contains z = true →
        ofRat false (z * 2 ^ k) = .infinite false := by
      intro z inside
      have beyond := overflow_le_of_contains full (by omega) (contains_scaled above inside k)
      have pos := pos_of_contains positive inside
      exact (ofRat_eq_infinite_iff (by positivity)).mpr beyond
    rw [infinite hx, infinite hy]

/-- Integers of at most 53 bits with zeros behind them. -/
theorem representable_mul_two_pow {n : Nat} (few : n < 2 ^ 53) (places : k ≤ 971) :
    Representable (n * 2 ^ k) := by
  rw [← zpow_natCast]
  exact representable_units few (by omega) (by omega)

end Scaling

/-! ### One digit more -/

section Push

variable {x y : Binary64} {a b : Rat} {n k value : Nat}

theorem ofNat_mul_two_pow_eq (n k : Nat) : ofNat (n * 2 ^ k) = ofRat false (n * 2 ^ k) := by
  rw [ofNat]
  push_cast
  rfl

theorem Binary64.Unsigned.mul_eq (hx : Unsigned x) (hy : Unsigned y) (at_a : x.toRat? = some a)
    (at_b : y.toRat? = some b) : x.mul y = ofRat false (a * b) := by
  rcases hx.cases with rfl | ⟨m, q, canonical, rfl⟩ <;> cases at_a
  rcases hy.cases with rfl | ⟨n, r, canonical', rfl⟩ <;> cases at_b
  rfl

theorem Binary64.Unsigned.add_eq (hx : Unsigned x) (at_a : x.toRat? = some a)
    (at_b : y.toRat? = some b) : x.add y = ofRat false (a + b) := by
  rw [add_eq_ofRat at_a at_b, hx.isNegative, Bool.false_and]

theorem Binary64.Unsigned.infinite_add (hy : Unsigned y) :
    (infinite false).add y = infinite false := by
  rcases hy.cases with rfl | ⟨n, r, canonical, rfl⟩ <;> rfl

theorem Binary64.Unsigned.infinite_mul (hy : Unsigned y) (at_b : y.toRat? = some b) (pos : 0 < b) :
    (infinite false).mul y = infinite false := by
  rcases hy.cases with rfl | ⟨n, r, canonical, rfl⟩ <;> cases at_b
  have some_bit : n ≠ 0 := by
    rintro rfl
    exact pos.ne' (by simp [signedRat])
  rw [mul, if_neg some_bit]
  rfl

/-- An integer's number: of a finite one the interval contains the integer. -/
theorem ofNat_cases_contains (n : Nat) : (∃ m q canonical, ofNat n = .finite false m q canonical ∧
    (ofParts m q).contains n = true) ∨ ofNat n = .infinite false ∧ overflow ≤ n :=
  ofRat_cases (Nat.cast_nonneg n)

/-- A multiplication by a power of two rounds nothing that is not rounded already. -/
theorem ofNat_mul_two_pow (n : Nat) (few : k ≤ 53) :
    (ofNat n).mul (ofNat (2 ^ k)) = ofNat (n * 2 ^ k) := by
  have power := toRat?_ofNat (Nat.pow_le_pow_right (by decide : 0 < 2) few)
  rw [ofNat_mul_two_pow_eq]
  push_cast at power
  rcases ofNat_cases_contains n with ⟨m, q, canonical, finite, inside⟩ | ⟨infinite, beyond⟩
  · have product := (unsigned_ofNat n).mul_eq (unsigned_ofNat (2 ^ k))
      (show (ofNat n).toRat? = some (m * 2 ^ q : Rat) by rw [finite]; rfl) power
    rw [product]
    rcases Nat.eq_zero_or_pos n with rfl | positive
    · have zero := toRat?_ofNat (Nat.zero_le (2 ^ 53))
      rw [finite] at zero
      rw [show (m * 2 ^ q : Rat) = (0 : Nat) from Option.some.inj zero]
    · have above := least_lt_of_contains canonical (by exact_mod_cast positive) inside
      exact ofRat_mul_two_pow_congr canonical above (contains_self m q) inside k
  · have one_le : (1 : Rat) ≤ 2 ^ k := one_le_pow₀ (by norm_num)
    have nonneg : (0 : Rat) ≤ n := by positivity
    rw [infinite, (unsigned_ofNat (2 ^ k)).infinite_mul power (by positivity)]
    exact ((ofRat_eq_infinite_iff (by positivity)).mpr (by nlinarith)).symm

/-- While all bits fit the significand, one more digit is rounded once. -/
theorem pushDigit_small (small : n < 2 ^ 53) (few : k ≤ 53) (digit : value < 2 ^ k) :
    pushDigit (2 ^ k) (ofNat n) value = ofNat (n * 2 ^ k + value) := by
  have shifted : (ofNat (n * 2 ^ k)).toRat? = some (n * 2 ^ k : Rat) := by
    rw [ofNat_mul_two_pow_eq]
    exact toRat?_ofRat false (representable_mul_two_pow small (show k ≤ 971 by omega))
  have power : 2 ^ k ≤ 2 ^ 53 := Nat.pow_le_pow_right (by decide) few
  rw [pushDigit, ofNat_mul_two_pow n few,
    (unsigned_ofNat _).add_eq shifted (toRat?_ofNat (show value ≤ 2 ^ 53 by omega)), ofNat]
  push_cast
  rfl

/-- Once the bits fill the significand, one more digit only counts as a zero. -/
theorem pushDigit_large (large : 2 ^ 53 ≤ n) (few : k ≤ 53) (digit : value < 2 ^ k) :
    pushDigit (2 ^ k) (ofNat n) value = ofNat (n * 2 ^ k) := by
  have power : 2 ^ k ≤ 2 ^ 53 := Nat.pow_le_pow_right (by decide) few
  have digit_exact := toRat?_ofNat (show value ≤ 2 ^ 53 by omega)
  rw [pushDigit, ofNat_mul_two_pow n few]
  rcases ofNat_cases_contains (n * 2 ^ k) with
    ⟨m, q, canonical, finite, inside⟩ | ⟨infinite, -⟩
  · -- The unit in the last place is twice the radix at least.
    have coarse : (k : Int) < q := by
      refine lt_exponent_of_contains canonical ?_ inside
      push_cast
      exact mul_le_mul_of_nonneg_right (by exact_mod_cast large) (by positivity)
    have half : (value : Rat) < 2 ^ q / 2 := by
      have unit_le : (2 : Rat) ^ (k + 1 : Int) ≤ 2 ^ q := zpow_le_zpow_right₀ (by norm_num) coarse
      rw [zpow_add_one₀ (by norm_num), zpow_natCast] at unit_le
      have below : (value : Rat) < 2 ^ k := by exact_mod_cast digit
      linarith
    have positive := pos_of_full (full_le canonical (by omega))
    rw [(unsigned_ofNat _).add_eq
      (show (ofNat (n * 2 ^ k)).toRat? = some (m * 2 ^ q : Rat) by rw [finite]; rfl) digit_exact,
      finite, ofRat_of_contains canonical positive (contains_add m (Nat.cast_nonneg value) half)]
  · rw [infinite, (unsigned_ofNat value).infinite_add]

end Push

/-! ### All digits -/

/-- A natural number with zeros in place of the digits behind those that fill the significand. -/
def kept (radix n : Nat) : Nat :=
  if n / radix < 2 ^ 53 ∨ radix < 2 then n else kept radix (n / radix) * radix
termination_by n
decreasing_by
  have : 0 < n := by
    rcases Nat.eq_zero_or_pos n with rfl | positive <;> simp_all
  exact Nat.div_lt_self this (by omega)

section Kept

variable {radix n value k : Nat}

theorem kept_of_lt (small : n / radix < 2 ^ 53) : kept radix n = n := by
  rw [kept, if_pos (.inl small)]

theorem kept_of_le (two_le : 2 ≤ radix) (large : 2 ^ 53 ≤ n / radix) :
    kept radix n = kept radix (n / radix) * radix := by
  rw [kept, if_neg (by omega)]

theorem two_le_two_pow (bits : radix = 2 ^ k) (some_bit : 0 < k) : 2 ≤ radix :=
  bits ▸ Nat.pow_le_pow_right (by decide : 0 < 2) some_bit

/-- The digits that are kept are the first ones. -/
theorem exists_kept_eq (two_le : 2 ≤ radix) (n : Nat) : ∃ j,
    kept radix n = n / radix ^ j * radix ^ j ∧ (j = 0 ∨ 2 ^ 53 ≤ n / radix ^ j) := by
  induction n using Nat.strongRecOn with
  | ind n ih =>
    by_cases small : n / radix < 2 ^ 53
    · exact ⟨0, by rw [kept_of_lt small]; simp, .inl rfl⟩
    · have less : n / radix < n := Nat.div_lt_self (Nat.pos_of_ne_zero fun zero => by simp_all) two_le
      obtain ⟨j, front, filled⟩ := ih _ less
      rw [Nat.div_div_eq_div_mul, ← Nat.pow_succ'] at front filled
      refine ⟨j + 1, ?_, .inr ?_⟩
      · rw [kept_of_le two_le (by omega), front, Nat.mul_assoc, ← Nat.pow_succ]
      · rcases filled with rfl | filled
        · simpa using small
        · exact filled

theorem kept_le (two_le : 2 ≤ radix) (n : Nat) : kept radix n ≤ n := by
  obtain ⟨j, front, -⟩ := exists_kept_eq two_le n
  exact front ▸ Nat.div_mul_le_self ..

/-- What fills the significand still does without the later digits. -/
theorem le_kept (two_le : 2 ≤ radix) (large : 2 ^ 53 ≤ n) : 2 ^ 53 ≤ kept radix n := by
  obtain ⟨j, front, rfl | filled⟩ := exists_kept_eq two_le n
  · simpa [front] using large
  · rw [front]
    exact filled.trans (Nat.le_mul_of_pos_right _ (Nat.pow_pos (by omega)))

/-- A reading digit by digit goes from what is kept of a number to what is kept with one digit
more. -/
theorem pushDigit_kept (bits : radix = 2 ^ k) (some_bit : 0 < k) (few : k ≤ 53)
    (digit : value < radix) :
    pushDigit radix (ofNat (kept radix n)) value = ofNat (kept radix (n * radix + value)) := by
  have two_le := two_le_two_pow bits some_bit
  have quotient : (n * radix + value) / radix = n := by
    rw [Nat.mul_comm, Nat.mul_add_div (by omega), Nat.div_eq_of_lt digit, Nat.add_zero]
  rcases Nat.lt_or_ge n (2 ^ 53) with small | large
  · rw [kept_of_lt (quotient.trans_lt small),
      kept_of_lt ((Nat.div_le_self n radix).trans_lt small), bits]
    exact pushDigit_small small few (bits ▸ digit)
  · have behind : kept radix (n * radix + value) = kept radix n * radix := by
      rw [kept_of_le two_le (by rwa [quotient]), quotient]
    rw [behind]
    subst bits
    exact pushDigit_large (le_kept two_le large) few digit

theorem two_pow_of_mem {letter : Char} (mem : (letter, radix) ∈ radixLetters) :
    ∃ k, radix = 2 ^ k ∧ 0 < k ∧ k ≤ 4 := by
  have all : ∀ entry ∈ radixLetters, ∃ k ≤ 4, entry.2 = 2 ^ k ∧ 0 < k := by decide
  obtain ⟨k, few, bits, some_bit⟩ := all _ mem
  exact ⟨k, bits, some_bit, few⟩

/-- A radix literal has the value nearest to what is kept of the number that its digits spell. -/
theorem Literal.RadixForm.number?_eq {text : List Char} (form : RadixForm radix text n) :
    number? text = some (ofNat (kept radix n)) := by
  obtain @⟨letter, digits, _, selected, some_digit, spelled⟩ := form
  obtain ⟨k, bits, some_bit, few⟩ := two_pow_of_mem selected
  obtain ⟨values, found, total⟩ := @Spells.exists_values digits radix n Binary64 (pushDigit radix)
    (fun n => ofNat (kept radix n)) (radix_le_of_mem selected)
    (fun n value below => pushDigit_kept bits some_bit (by omega) below) spelled
  have read := radix?_eq_some_iff.mpr
    ⟨letter, digits, radix, values, rfl, some_digit, selected, found, rfl⟩
  have start : kept radix 0 = 0 := kept_of_lt (by simp)
  have zero : ofNat 0 = Binary64.zero false := by decide
  rw [number?_of_radix? read, ← zero, ← start, total]

/-! ### Where the later digits count -/

/-- Half way from a finite number whose significand is even to the next one above it. -/
def TiesDown (x : Rat) : Prop :=
  ∃ m q, Canonical m q ∧ m % 2 = 0 ∧ x = (m + 1 / 2) * 2 ^ q

/-- Behind an integer of more bits than a significand has, places behind the point do not count
unless it is in the middle of two numbers. -/
theorem contains_of_untied {m a : Nat} {q : Int} {x : Rat} (canonical : Canonical m q)
    (large : 2 ^ 53 ≤ a) (inside : (ofParts m q).contains a = true)
    (untied : (a : Rat) ≠ (m + 1 / 2) * 2 ^ q) (low : a ≤ x) (high : x < a + 1) :
    (ofParts m q).contains x = true := by
  have unit : (0 : Rat) < 2 ^ q := by positivity
  obtain ⟨above, below, tie⟩ := contains_ofParts_iff.mp inside
  rw [div_le_iff₀ unit] at below
  have coarse : ((0 : Nat) : Int) < q := by
    refine lt_exponent_of_contains canonical ?_ inside
    rw [pow_zero, mul_one]
    exact_mod_cast large
  obtain ⟨j, rfl⟩ : ∃ j : Nat, q = j + 1 := ⟨(q - 1).toNat, by omega⟩
  have middle : ((m : Rat) + 1 / 2) * 2 ^ (j + 1 : Int) = ((2 * m + 1) * 2 ^ j : Nat) := by
    rw [zpow_add_one₀ (by norm_num), zpow_natCast]
    push_cast
    ring
  rw [middle] at below untied
  have next : a + 1 ≤ (2 * m + 1) * 2 ^ j :=
    lt_of_le_of_ne (by exact_mod_cast below) (by exact_mod_cast untied)
  have next' : x < (m + 1 / 2) * 2 ^ (j + 1 : Int) := by
    rw [middle]
    refine lt_of_lt_of_le high ?_
    exact_mod_cast next
  have shorter : x / 2 ^ (j + 1 : Int) < m + 1 / 2 := (div_lt_iff₀ unit).mpr next'
  have longer : a / 2 ^ (j + 1 : Int) ≤ x / 2 ^ (j + 1 : Int) := div_le_div_of_nonneg_right low unit.le
  exact contains_ofParts_iff.mpr ⟨above.trans longer, shorter.le,
    tie.imp_right fun strict => ⟨strict.1.trans_le longer, shorter⟩⟩

/-- Integers with the same first bits, more than a significand has, are rounded to the same number
unless the zeros behind these bits make a tie. -/
theorem ofNat_eq_of_untied {a l n : Nat} (large : 2 ^ 53 ≤ a) (low : a * 2 ^ l ≤ n)
    (high : n < (a + 1) * 2 ^ l) (untied : ¬ TiesDown (a * 2 ^ l)) :
    ofNat (a * 2 ^ l) = ofNat n := by
  have low : (a * 2 ^ l : Rat) ≤ n := by exact_mod_cast low
  have high : (n : Rat) < (a + 1) * 2 ^ l := by exact_mod_cast high
  have both_infinite : overflow ≤ (a * 2 ^ l : Rat) → ofNat (a * 2 ^ l) = ofNat n := by
    intro beyond
    rw [ofNat_mul_two_pow_eq, (ofRat_eq_infinite_iff (by positivity)).mpr beyond]
    exact ((ofRat_eq_infinite_iff (Nat.cast_nonneg n)).mpr (beyond.trans low)).symm
  rcases ofNat_cases_contains a with ⟨m, q, canonical, -, inside⟩ | ⟨-, beyond⟩
  · have size : (1 : Rat) ≤ a := by exact_mod_cast (Nat.one_le_two_pow.trans large)
    have above := least_lt_of_contains canonical size inside
    have full := full_le canonical (by omega)
    by_cases tied : (a : Rat) = (m + 1 / 2) * 2 ^ q
    · refine both_infinite (overflow_le_of_contains full ?_ (contains_scaled above inside l))
      by_contra fits
      obtain ⟨-, -, tie⟩ := contains_ofParts_iff.mp inside
      rw [tied, mul_div_cancel_right₀ _ (by positivity)] at tie
      have even : m % 2 = 0 := tie.resolve_right fun strict => strict.2.false
      refine untied ⟨m, q + l, canonical_shifted canonical above (by omega), even, ?_⟩
      rw [tied, zpow_add₀ (by norm_num), zpow_natCast, mul_assoc]
    · -- The number is the first bits and a fraction of the last of them, in places of that.
      have inside' := contains_of_untied canonical large inside tied
        ((le_div_iff₀ (by positivity)).mpr low) ((div_lt_iff₀ (by positivity)).mpr high)
      have same := ofRat_mul_two_pow_congr canonical above inside inside' l
      rwa [div_mul_cancel₀ _ (by positivity), ← ofNat_mul_two_pow_eq] at same
  · exact both_infinite (beyond.trans
      (le_mul_of_one_le_right (Nat.cast_nonneg a) (one_le_pow₀ (by norm_num))))

/-- What ties, down, is rounded to another number than anything greater. -/
theorem TiesDown.ofRat_ne {x y : Rat} (tied : TiesDown x) (less : x < y) :
    ofRat false x ≠ ofRat false y := by
  obtain ⟨m, q, canonical, even, rfl⟩ := tied
  have unit : (0 : Rat) < 2 ^ q := by positivity
  have nonneg : (0 : Rat) ≤ (m + 1 / 2) * 2 ^ q := by positivity
  have inside : (ofParts m q).contains ((m + 1 / 2) * 2 ^ q) = true := by
    have gap_pos := gap_pos m q
    rw [contains_ofParts_iff, mul_div_cancel_right₀ _ unit.ne']
    exact ⟨by linarith, le_refl _, .inl even⟩
  rw [← (isNearest_iff nonneg).mp (isNearest_of_contains canonical inside)]
  intro same
  rcases ofRat_cases (nonneg.trans less.le) with ⟨m', q', canonical', finite, inside'⟩ | ⟨infinite, -⟩
  · rw [finite] at same
    cases same
    obtain ⟨-, high, -⟩ := contains_ofParts_iff.mp inside'
    exact less.not_ge ((div_le_iff₀ unit).mp high)
  · rw [infinite] at same
    cases same

/-- What is kept of a number is rounded to another one just when it ties, down, and the number is
greater. -/
theorem ofNat_kept_ne_iff (bits : radix = 2 ^ k) (some_bit : 0 < k) :
    ofNat (kept radix n) ≠ ofNat n ↔ kept radix n < n ∧ TiesDown (kept radix n) := by
  have two_le := two_le_two_pow bits some_bit
  constructor
  · intro differ
    have less : kept radix n < n :=
      lt_of_le_of_ne (kept_le two_le n) fun same => differ (congrArg ofNat same)
    refine ⟨less, by_contra fun untied => differ ?_⟩
    obtain ⟨j, front, first | filled⟩ := exists_kept_eq two_le n
    · rw [front, first, Nat.pow_zero, Nat.div_one, Nat.mul_one]
    · have high : n < (n / radix ^ j + 1) * radix ^ j :=
        Nat.lt_mul_of_div_lt (Nat.lt_succ_self _) (Nat.pow_pos (by omega))
      rw [front] at less untied ⊢
      subst bits
      rw [← Nat.pow_mul] at *
      push_cast at untied
      exact ofNat_eq_of_untied filled less.le high untied
  · rintro ⟨less, tied⟩
    exact tied.ofRat_ne (by exact_mod_cast less)

end Kept

/-! ### The literals of a number -/

/-- Zeros in front of digits do not change what they spell. -/
theorem Literal.Spells.zeros_append {radix n : Nat} {digits : List Char} (positive : 0 < radix)
    (spelled : Spells radix digits n) (k : Nat) :
    Spells radix (List.replicate k '0' ++ digits) n := by
  induction spelled with
  | nil =>
    rw [List.append_nil]
    induction k with
    | zero => exact .nil
    | succ k ih =>
      rw [List.replicate_succ']
      have more : Spells radix _ (0 * radix + 0) := .snoc ih ⟨positive, .inl rfl⟩
      rwa [Nat.zero_mul, Nat.add_zero] at more
  | snoc spelled digit ih =>
    rw [← List.append_assoc]
    exact .snoc ih digit

/-- The digits of a number spell it. -/
theorem spells_toDigits {radix : Nat} (two_le : 2 ≤ radix) (n : Nat) :
    Spells radix (Nat.toDigits radix n) n := by
  induction n using Nat.strongRecOn with
  | ind n ih =>
    rcases Nat.lt_or_ge n radix with small | large
    · rw [Nat.toDigits_of_lt_base small]
      have one : Spells radix ([] ++ [n.digitChar]) (0 * radix + n) := .snoc .nil ⟨small, .inl rfl⟩
      rwa [Nat.zero_mul, Nat.zero_add] at one
    · rw [Nat.toDigits_of_base_le two_le large]
      have less : n / radix < n := Nat.div_lt_self (by omega) two_le
      have last : IsDigitOf radix (n % radix) (n % radix).digitChar :=
        ⟨Nat.mod_lt n (by omega), .inl rfl⟩
      have more := Spells.snoc (ih _ less) last
      rwa [Nat.div_add_mod'] at more

/-- The digits of a number behind a radix's letter, with zeros in front of them. -/
theorem radixForm_toDigits {letter : Char} {radix : Nat} (mem : (letter, radix) ∈ radixLetters)
    (k n : Nat) :
    RadixForm radix ('0' :: letter :: (List.replicate k '0' ++ Nat.toDigits radix n)) n := by
  obtain ⟨i, bits, some_bit, -⟩ := two_pow_of_mem mem
  have two_le := two_le_two_pow bits some_bit
  refine .mk mem ?_ ((spells_toDigits two_le n).zeros_append (by omega) k)
  intro empty
  exact Nat.toDigits_ne_nil (List.append_eq_nil_iff.mp empty).2

/-- However an integer is spelled, its literal is one. A decimal one has the value nearest to the
integer, a radix literal the one nearest to what is kept of it, and these differ just when that
ties, down, and is not all of it. -/
theorem value_of_spelling (n : Nat) :
    (∀ digits, digits ≠ [] → Spells 10 digits n →
      ∃ v, number? digits = some v ∧ IsNearest v n) ∧
    ∀ radix text, RadixForm radix text n → ∃ v, number? text = some v ∧
      IsNearest v (kept radix n) ∧
      (IsNearest v n ↔ ¬ (kept radix n < n ∧ TiesDown (kept radix n))) := by
  constructor
  · intro digits some_digit spelled
    have denoted := DecimalForm.mk (.whole some_digit spelled) .none
    rw [List.append_nil, zpow_zero, mul_one] at denoted
    have nearest := (isNearest_iff (Nat.cast_nonneg n)).mpr rfl
    exact ⟨_, denoted.number?_eq_some_iff.mpr nearest, nearest⟩
  · intro radix text form
    obtain ⟨k, bits, some_bit, -⟩ : ∃ k, radix = 2 ^ k ∧ 0 < k ∧ k ≤ 4 := by
      obtain ⟨selected, -, -⟩ := form
      exact two_pow_of_mem selected
    refine ⟨_, form.number?_eq, (isNearest_iff (Nat.cast_nonneg _)).mpr rfl, ?_⟩
    rw [isNearest_iff (Nat.cast_nonneg n), ← ofNat_kept_ne_iff bits some_bit, not_not]
    rfl

theorem value_of_spelling_five :
    (∃ v, number? "005".toList = some v ∧ IsNearest v 5) ∧
      ∃ v, number? "0B0101".toList = some v ∧ IsNearest v 5 := by
  have decimal : Spells 10 "005".toList 5 :=
    (spells_toDigits (by decide) 5).zeros_append (by decide) 2
  have letter : ('B', 2) ∈ radixLetters := by decide
  have binary : RadixForm 2 "0B0101".toList 5 := radixForm_toDigits letter 1 5
  have all : kept 2 5 = 5 := kept_of_lt (by decide)
  obtain ⟨v, read, nearest, -⟩ := (value_of_spelling 5).2 2 _ binary
  rw [all] at nearest
  exact ⟨(value_of_spelling 5).1 _ (by decide) decimal, v, read, nearest⟩

/-- The last digit of an integer decides in its decimal literal and is lost in its radix literal. -/
theorem radix_literal_not_nearest :
    RadixForm 16 "0x200000000000011".toList 144115188075855889 ∧
      ∃ v w, number? "0x200000000000011".toList = some v ∧
        number? "144115188075855889".toList = some w ∧ v ≠ w ∧
        ¬ IsNearest v 144115188075855889 := by
  have letter : ('x', 16) ∈ radixLetters := by decide
  have digits : Nat.toDigits 16 144115188075855889 = "200000000000011".toList := by decide +kernel
  have form : RadixForm 16 "0x200000000000011".toList 144115188075855889 := by
    have spelled := radixForm_toDigits letter 0 144115188075855889
    rwa [digits] at spelled
  have front : kept 16 144115188075855889 = 144115188075855888 := by
    rw [kept_of_le (by decide) (by decide), kept_of_lt (by decide)]
  have tied : TiesDown ((144115188075855888 : Nat) : Rat) :=
    ⟨2 ^ 52, 5, ⟨by decide, by decide, by decide, .inl (by decide)⟩, by decide, by norm_num⟩
  have differ : ofNat 144115188075855888 ≠ ofRat false 144115188075855889 :=
    tied.ofRat_ne (by norm_num)
  exact ⟨form, _, _, front ▸ form.number?_eq, number?_toDigits 144115188075855889, differ,
    fun nearest => differ ((isNearest_iff (by norm_num)).mp nearest)⟩

end SelectionFormula
