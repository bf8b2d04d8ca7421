import SelectionFormula.Proofs.Binary64.Exact
import SelectionFormula.Proofs.Decimal.Literal

/-!
Literals have no sign.

A number literal stands for a number whose sign bit is clear and that is a number
(`unsigned_of_number?`). It may be infinite, for a literal beyond the format: a radix literal
never loses that again, since it is multiplied by the radix and not by zero. Numbers without
a sign that compare as the same are equal (`eq_of_sameNumber`).
-/

namespace SelectionFormula

open Binary64

/-- A number with a clear sign bit. -/
structure Binary64.Unsigned (x : Binary64) : Prop where
  isNaN : x.isNaN = false
  isNegative : x.isNegative = false

namespace Binary64

variable {x y : Binary64}

theorem unsigned_infinite : Unsigned (infinite false) :=
  ⟨rfl, rfl⟩

theorem unsigned_zero : Unsigned (zero false) :=
  ⟨rfl, rfl⟩

theorem Unsigned.cases (unsigned : Unsigned x) :
    x = infinite false ∨ ∃ m q canonical, x = finite false m q canonical := by
  obtain ⟨number, positive⟩ := unsigned
  cases x with
  | nan => cases number
  | infinite negative => exact .inl (congrArg infinite positive)
  | finite negative m q canonical =>
    cases negative with
    | true => cases positive
    | false => exact .inr ⟨m, q, canonical, rfl⟩

theorem signedRat_nonneg (m : Nat) (q : Int) : 0 ≤ signedRat false m q := by
  have unit : (0 : Rat) < 2 ^ q := by positivity
  simp only [signedRat, Bool.false_eq_true, if_false]
  positivity

theorem unsigned_ofRat {r : Rat} (nonneg : 0 ≤ r) : Unsigned (ofRat false r) := by
  have sign : decide (r < 0) = false := decide_eq_false (not_lt.mpr nonneg)
  unfold ofRat
  split
  · exact unsigned_zero
  · dsimp only
    split
    · exact ⟨rfl, sign⟩
    · exact ⟨rfl, sign⟩

theorem unsigned_ofNat (n : Nat) : Unsigned (ofNat n) :=
  unsigned_ofRat (by exact_mod_cast Nat.zero_le n)

theorem Unsigned.add (hx : Unsigned x) (hy : Unsigned y) : Unsigned (x.add y) := by
  rcases hx.cases with rfl | ⟨m, q, _, rfl⟩ <;> rcases hy.cases with rfl | ⟨n, r, _, rfl⟩
  · exact unsigned_infinite
  · exact unsigned_infinite
  · exact unsigned_infinite
  · exact unsigned_ofRat (add_nonneg (signedRat_nonneg m q) (signedRat_nonneg n r))

/-- A multiple is no product of zero and infinity. -/
theorem Unsigned.mul_ofNat (hx : Unsigned x) {n : Nat} (positive : 0 < n) (few : n ≤ 2 ^ 53) :
    Unsigned (x.mul (ofNat n)) := by
  have value := toRat?_ofNat few
  rcases (unsigned_ofNat n).cases with infinite | ⟨k, r, canonical, factor⟩
  · rw [infinite] at value
    cases value
  rw [factor] at value ⊢
  rcases hx.cases with rfl | ⟨m, q, _, rfl⟩
  · have nonzero : k ≠ 0 := by
      rintro rfl
      have : (n : Rat) = 0 := by simpa [toRat?, signedRat] using value.symm
      exact positive.ne' (by exact_mod_cast this)
    rw [mul, if_neg nonzero]
    exact unsigned_infinite
  · exact unsigned_ofRat (mul_nonneg (signedRat_nonneg m q) (signedRat_nonneg k r))

/-- Numbers without a sign that are the same number are equal. -/
theorem eq_of_sameNumber (hx : Unsigned x) (hy : Unsigned y) (same : x.sameNumber y = true) :
    x = y := by
  rcases hx.cases with rfl | ⟨m, q, hm, rfl⟩ <;> rcases hy.cases with rfl | ⟨n, r, hn, rfl⟩
  · rfl
  · cases same
  · cases same
  · obtain ⟨rfl, rfl⟩ := canonical_unique hm hn (beq_iff_eq.mp same)
    rfl

theorem sameNumber_self (number : x.isNaN = false) : x.sameNumber x = true := by
  cases x with
  | nan => cases number
  | infinite negative => exact beq_self_eq_true negative
  | finite negative m q canonical => exact beq_self_eq_true (signedRat negative m q)

end Binary64

namespace Literal

variable {text : List Char} {value : Binary64}

theorem unsigned_nearestDecimal (digits : Nat) (exponent : Int) :
    Unsigned (nearestDecimal digits exponent) := by
  unfold nearestDecimal
  dsimp only
  split
  · exact unsigned_zero
  · split
    · exact unsigned_infinite
    · split
      · exact unsigned_zero
      · exact unsigned_ofRat (by positivity)

theorem unsigned_foldl {radix : Nat} (positive : 0 < radix) (few : radix ≤ 2 ^ 53)
    (digits : List Nat) {sofar : Binary64} (unsigned : Unsigned sofar) :
    Unsigned (digits.foldl (pushDigit radix) sofar) := by
  induction digits generalizing sofar with
  | nil => exact unsigned
  | cons digit digits ih =>
    exact ih ((unsigned.mul_ofNat positive few).add (unsigned_ofNat digit))

theorem radixOf?_bounds {letter : Char} {radix : Nat} (found : radixOf? letter = some radix) :
    0 < radix ∧ radix ≤ 2 ^ 53 := by
  unfold radixOf? at found
  split at found
  · cases found
    decide
  · split at found
    · cases found
      decide
    · split at found <;> cases found
      decide

/-- A literal stands for a number with a clear sign bit. -/
theorem unsigned_of_number? (accepted : number? text = some value) : Unsigned value := by
  rcases number?_cases accepted with radix | decimal
  · obtain ⟨letter, digits, base, values, -, -, found, -, rfl⟩ := exists_of_radix? radix
    obtain ⟨positive, few⟩ := radixOf?_bounds found
    exact unsigned_foldl positive few values unsigned_zero
  · obtain ⟨whole, point, part, rest, e, -, -, -, -, -, -, rfl⟩ := exists_of_decimal? decimal
    exact unsigned_nearestDecimal _ _

end Literal

end SelectionFormula
