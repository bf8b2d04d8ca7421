import SelectionFormula.Binary64.Bits
import SelectionFormula.Proofs.Binary64.Nearest
import SelectionFormula.Proofs.Binary64.SignedZero

/-!
Rounding to the nearest integer, a half going up.

The decision compares a difference computed in binary64, a number less its floor, with a half. While
that difference is below a half it is exact (`representable_fraction`): it is a count of the
number's own units, and only just below zero the count has more bits than the number, where the
distance to the floor is more than a half. From a half on the difference may be rounded, but not to
below a half (`le_ofRat`). So the decision is that of the exact difference (`half_le_sub_floor`), and
the result is the floor of the number and a half (`toRat?_round`). The floor and the integer behind
it are exact (`toRat?_floor`, `representable_successor`), and from `2 ^ 52` on a number is its own
floor (`round_of_large`).
-/

namespace SelectionFormula

namespace Binary64

variable {x y z : Binary64} {a b r : Rat}

/-! ### Numbers by their values -/

theorem exists_finite (exact : x.toRat? = some r) :
    ∃ negative m q canonical, x = finite negative m q canonical ∧ signedRat negative m q = r := by
  cases x with
  | finite negative m q canonical => exact ⟨negative, m, q, canonical, rfl, Option.some.inj exact⟩
  | _ => cases exact

/-- Numbers of one value other than zero are the same. -/
theorem eq_of_toRat? (hx : x.toRat? = some r) (hy : y.toRat? = some r) (nonzero : r ≠ 0) :
    x = y := by
  have same : x.sameNumber y = true := by
    obtain ⟨s, m, q, hm, rfl, left⟩ := exists_finite hx
    obtain ⟨t, n, p, hn, rfl, right⟩ := exists_finite hy
    exact beq_iff_eq.mpr (left.trans right.symm)
  cases alike_of_sameNumber same with
  | refl => rfl
  | zero s t =>
    rw [toRat?_zero] at hx
    exact absurd (Option.some.inj hx).symm nonzero

theorem isZero_iff : x.isZero = true ↔ x.toRat? = some 0 := by
  constructor
  · intro zero
    obtain ⟨s, rfl⟩ := eq_zero_of_isZero zero
    exact toRat?_zero s
  · intro exact
    obtain ⟨negative, m, q, canonical, rfl, value⟩ := exists_finite exact
    have unit : (2 : Rat) ^ q ≠ 0 := by positivity
    have none : (m : Rat) * 2 ^ q = 0 := by
      rw [← abs_signedRat negative m q, value, abs_zero]
    have bits : (m : Rat) = 0 := (mul_eq_zero.mp none).resolve_right unit
    exact beq_iff_eq.mpr (by exact_mod_cast bits)

theorem sub_eq_ofRat (hx : x.toRat? = some a) (hy : y.toRat? = some b) :
    ∃ sign, x.sub y = ofRat sign (a - b) := by
  have opposite : y.neg.toRat? = some (-b) := by
    obtain ⟨t, n, p, hn, rfl, rfl⟩ := exists_finite hy
    exact congrArg some (signedRat_not t n p)
  exact ⟨_, by rw [sub, add_eq_ofRat hx opposite, sub_eq_add_neg]⟩

/-! ### The floor -/

/-- A representable rational is its own floor, or the floor is small. -/
theorem floor_eq_or_small (kept : Representable r) :
    (r.floor : Rat) = r ∨ r.floor.natAbs ≤ 2 ^ 52 := by
  obtain ⟨negative, m, q, canonical, rfl⟩ := kept
  rcases integer_or_small negative canonical with ⟨i, integer⟩ | ⟨-, small⟩
  · exact .inl (by rw [integer, Rat.floor_intCast])
  · obtain ⟨low, high⟩ := abs_lt.mp small
    have below := Rat.floor_lt_iff.mpr (show _ < ((2 ^ 52 : Int) : Rat) by exact_mod_cast high)
    have above := Rat.le_floor_iff.mpr (show ((-2 ^ 52 : Int) : Rat) ≤ _ by exact_mod_cast low.le)
    exact .inr (by omega)

theorem representable_floor (kept : Representable r) : Representable r.floor := by
  rcases floor_eq_or_small kept with integer | small
  · rwa [integer]
  · exact representable_intCast (by omega)

/-- The integer above a number that is none is representable. -/
theorem representable_successor (kept : Representable r) (above : (r.floor : Rat) < r) :
    Representable (r.floor + 1 : Int) := by
  have small := (floor_eq_or_small kept).resolve_left above.ne
  exact representable_intCast (by omega)

theorem representable_of_toRat? (exact : x.toRat? = some r) : Representable r := by
  obtain ⟨negative, m, q, canonical, rfl, rfl⟩ := exists_finite exact
  exact ⟨negative, m, q, canonical, rfl⟩

theorem floor_eq_ofRat (exact : x.toRat? = some r) : x.floor = ofRat x.isNegative r.floor := by
  obtain ⟨negative, m, q, canonical, rfl, rfl⟩ := exists_finite exact
  rfl

theorem toRat?_floor (exact : x.toRat? = some r) : x.floor.toRat? = some (r.floor : Rat) := by
  rw [floor_eq_ofRat exact]
  exact toRat?_ofRat _ (representable_floor (representable_of_toRat? exact))

/-! ### The distance to the floor -/

/-- A finite number in its own units. -/
theorem signedRat_eq_units (negative : Bool) (m : Nat) (q : Int) :
    ∃ s : Int, s.natAbs = m ∧ signedRat negative m q = s * 2 ^ q := by
  cases negative
  · exact ⟨m, Int.natAbs_natCast m, by simp [signedRat]⟩
  · exact ⟨-m, by simp, by simp [signedRat]⟩

/-- The distance to an integer, counted in a number's own units. -/
theorem units_sub_integer (s low : Int) (k : Nat) :
    (s * 2 ^ (-k : Int) - low : Rat) = (s - low * 2 ^ k : Int) * 2 ^ (-k : Int) := by
  have unit : (2 : Rat) ^ k * 2 ^ (-k : Int) = 1 := by
    rw [zpow_neg, zpow_natCast, mul_inv_cancel₀ (by positivity)]
  push_cast
  rw [sub_mul, mul_assoc, unit, mul_one]

/-- A count of less than half of the units in one has no more bits than the number. -/
theorem count_lt {s low units : Int} (bits : s.natAbs < 2 ^ 53) (pos : 0 < units)
    (short : 2 * (s - low * units) < units) : s - low * units < 2 ^ 53 := by
  rcases Int.lt_or_le low 0 with below | above
  · -- A negative number is more than a half from zero here, so there are less than `2 ^ 54` units.
    have : low * units ≤ -1 * units := Int.mul_le_mul_of_nonneg_right (by omega) pos.le
    omega
  · have : 0 ≤ low * units := Int.mul_nonneg above pos.le
    omega

/-- A distance to the floor below a half is exact. -/
theorem representable_fraction (kept : Representable r) (below : r - r.floor < 1 / 2) :
    Representable (r - r.floor) := by
  obtain ⟨negative, m, q, canonical, rfl⟩ := kept
  rcases integer_or_small negative canonical with ⟨i, integer⟩ | ⟨places, -⟩
  · rw [integer, Rat.floor_intCast, sub_self]
    exact_mod_cast representable_natCast (Nat.zero_le _)
  obtain ⟨s, size, value⟩ := signedRat_eq_units negative m q
  obtain ⟨k, rfl⟩ : ∃ k : Nat, q = -k := ⟨(-q).toNat, by omega⟩
  have above := sub_nonneg.mpr (Rat.floor_le (signedRat negative m (-k)))
  have unit : (0 : Rat) < 2 ^ (-k : Int) := by positivity
  have half : (1 / 2 : Rat) = (2 ^ k / 2) * 2 ^ (-k : Int) := by
    rw [div_mul_eq_mul_div, zpow_neg, zpow_natCast, mul_inv_cancel₀ (by positivity)]
  rw [value] at above below ⊢
  generalize (s * 2 ^ (-k : Int) : Rat).floor = low at above below ⊢
  rw [units_sub_integer] at above below ⊢
  have nonneg : 0 ≤ s - low * 2 ^ k := by
    exact_mod_cast nonneg_of_mul_nonneg_left above unit
  have short : 2 * (s - low * 2 ^ k) < 2 ^ k := by
    rw [half] at below
    have : (2 * (s - low * 2 ^ k : Int) : Rat) < 2 ^ k := by
      linarith [lt_of_mul_lt_mul_right below unit.le]
    exact_mod_cast this
  have few := count_lt (size ▸ canonical.significand_lt) (by positivity) short
  obtain ⟨n, count⟩ := Int.eq_ofNat_of_zero_le nonneg
  rw [count] at few ⊢
  exact_mod_cast representable_units (by exact_mod_cast few) canonical.least_le
    canonical.le_greatest

/-- Rounding does not go below a number that is not above. -/
theorem le_ofRat {n : Nat} {p : Int} (canonical : Canonical n p) (sign : Bool)
    (le : (n : Rat) * 2 ^ p ≤ r) : (finite false n p canonical).le (ofRat sign r) = true := by
  have value : (finite false n p canonical).toRat? = some ((n : Rat) * 2 ^ p) := rfl
  have nonneg : 0 ≤ r := le_trans (by positivity) le
  rcases nonneg.eq_or_lt with rfl | pos
  · rw [ofRat, dif_pos rfl, le_eq value (toRat?_zero sign), decide_eq_true le]
  have signless : ofRat sign r = ofRat false r := by
    rw [ofRat, ofRat, dif_neg pos.ne', dif_neg pos.ne']
  rw [signless]
  rcases ofRat_cases nonneg with ⟨m, q, canonical', finite, inside⟩ | ⟨infinite, -⟩
  · rw [finite, le_eq value rfl]
    refine decide_eq_true (not_lt.mp fun less => not_lt.mpr le ?_)
    -- The interval of a smaller number ends before that of this one begins.
    have apart := intervals_apart canonical' canonical less
    have unit : (0 : Rat) < 2 ^ q := by positivity
    have inner : 0 < gap n p * 2 ^ p := mul_pos (gap_pos n p) (by positivity)
    obtain ⟨-, high, -⟩ := contains_ofParts_iff.mp inside
    rw [div_le_iff₀ unit] at high
    rw [sub_mul] at apart
    linarith
  · rw [infinite]
    rfl

theorem canonical_half : Canonical (1 <<< 52) (-53) :=
  ⟨by decide, by decide, by decide, .inl (Nat.le_refl _)⟩

theorem half_eq : half = finite false (1 <<< 52) (-53) canonical_half := by
  decide +kernel

theorem toRat?_half : half.toRat? = some (1 / 2) := by
  rw [half_eq, toRat?, signedRat, if_neg Bool.false_ne_true, cast_shiftLeft]
  norm_num

/-- The computed distance to the floor is at least a half just when the exact one is. -/
theorem half_le_sub_floor (exact : x.toRat? = some r) :
    half.le (x.sub x.floor) = decide (1 / 2 ≤ r - r.floor) := by
  obtain ⟨sign, distance⟩ := sub_eq_ofRat exact (toRat?_floor exact)
  rw [distance]
  rcases lt_or_ge (r - r.floor) (1 / 2) with near | far
  · have kept := representable_fraction (representable_of_toRat? exact) near
    rw [le_eq toRat?_half (toRat?_ofRat sign kept)]
  · rw [decide_eq_true far, half_eq]
    refine le_ofRat canonical_half sign (le_trans (le_of_eq ?_) far)
    rw [cast_shiftLeft]
    norm_num

/-! ### Rounding -/

/-- What rounding comes to before a zero takes the sign of the number. -/
def halfUp (x : Binary64) : Binary64 :=
  if half.le (x.sub x.floor) then x.floor.add one else x.floor

theorem round_eq_halfUp (x : Binary64) :
    x.round = if x.halfUp.isZero && x.isNegative then zero true else x.halfUp :=
  rfl

theorem floor_add_half (r : Rat) :
    (r + 1 / 2).floor = if 1 / 2 ≤ r - r.floor then r.floor + 1 else r.floor := by
  have low := Rat.floor_le r
  have high := Rat.lt_floor_add_one r
  push_cast at high
  split
  · exact floor_eq (by push_cast; linarith) (by push_cast; linarith)
  · exact floor_eq (by linarith) (by linarith)

theorem toRat?_halfUp (exact : x.toRat? = some r) :
    x.halfUp.toRat? = some ((r + 1 / 2).floor : Rat) := by
  have low := toRat?_floor exact
  rw [halfUp, half_le_sub_floor exact, floor_add_half]
  by_cases far : 1 / 2 ≤ r - r.floor
  · have unit : one.toRat? = some 1 := toRat?_ofNat (by decide)
    have kept := representable_successor (representable_of_toRat? exact) (by linarith)
    rw [Int.cast_add, Int.cast_one] at kept
    simp only [far, decide_true, if_true, Int.cast_add, Int.cast_one]
    exact toRat?_add low unit kept
  · simp only [far, decide_false, Bool.false_eq_true, if_false]
    exact low

/-- Without a sign bit the result has none. -/
theorem isNegative_halfUp (exact : x.toRat? = some r) (positive : x.isNegative = false) :
    x.halfUp.isNegative = false := by
  have nonneg : 0 ≤ r := by
    obtain ⟨negative, m, q, canonical, rfl, rfl⟩ := exists_finite exact
    obtain rfl : negative = false := positive
    exact signedRat_nonneg m q
  have low : 0 ≤ (r.floor : Rat) := by
    exact_mod_cast Rat.le_floor_iff.mpr (by exact_mod_cast nonneg)
  have floor := floor_eq_ofRat exact
  rw [positive] at floor
  have unsigned : Unsigned x.floor := floor ▸ unsigned_ofRat low
  unfold halfUp
  split
  · exact (unsigned.add (unsigned_ofNat 1)).isNegative
  · exact unsigned.isNegative

theorem toRat?_round (exact : x.toRat? = some r) :
    x.round.toRat? = some ((r + 1 / 2).floor : Rat) := by
  have value := toRat?_halfUp exact
  rw [round_eq_halfUp]
  split
  · next zero =>
    rw [isZero_iff.mp (Bool.and_eq_true_iff.mp zero).1] at value
    rw [toRat?_zero, value]
  · exact value

theorem round_eq_zero_iff (exact : x.toRat? = some r) :
    x.round = zero true ↔ (r + 1 / 2).floor = 0 ∧ x.isNegative = true := by
  have value := toRat?_halfUp exact
  constructor
  · intro rounded
    have none : ((r + 1 / 2).floor : Rat) = 0 := by
      have := toRat?_round exact
      rw [rounded, toRat?_zero] at this
      exact (Option.some.inj this).symm
    refine ⟨by exact_mod_cast none, ?_⟩
    by_contra positive
    have positive := Bool.eq_false_of_not_eq_true positive
    have signless := isNegative_halfUp exact positive
    rw [round_eq_halfUp, positive, Bool.and_false, if_neg Bool.false_ne_true] at rounded
    rw [rounded] at signless
    cases signless
  · rintro ⟨none, negative⟩
    rw [none, Int.cast_zero] at value
    rw [round_eq_halfUp, isZero_iff.mpr value, negative]
    rfl

/-- From `2 ^ 52` on a number is an integer and is rounded to itself. -/
theorem round_of_large (exact : x.toRat? = some r) (large : 2 ^ 52 ≤ |r|) : x.round = x := by
  have integer : ∃ i : Int, r = i := by
    obtain ⟨negative, m, q, canonical, rfl, rfl⟩ := exists_finite exact
    exact (integer_or_small negative canonical).resolve_right fun small => not_lt.mpr large small.2
  obtain ⟨i, rfl⟩ := integer
  have same : ((i : Rat) + 1 / 2).floor = i := floor_eq (by linarith) (by linarith)
  have nonzero : (i : Rat) ≠ 0 := by
    intro none
    rw [none, abs_zero] at large
    norm_num at large
  have value := toRat?_round exact
  rw [same] at value
  exact eq_of_toRat? value exact nonzero

/-- What is not finite stays. -/
theorem round_of_toRat?_eq_none (exact : x.toRat? = none) : x.round = x := by
  rw [round_eq_halfUp, halfUp, half_eq]
  cases x with
  | nan => rfl
  | infinite negative => cases negative <;> rfl
  | finite => cases exact

/-- A number that is not finite is below all the finite ones or below none. -/
theorem le_right_congr (hx : x.toRat? = none) (hy : y.toRat? = some a) (hz : z.toRat? = some b) :
    x.le y = x.le z := by
  obtain ⟨s, m, q, hm, rfl, -⟩ := exists_finite hy
  obtain ⟨t, n, p, hn, rfl, -⟩ := exists_finite hz
  cases x with
  | finite => cases hx
  | _ => rfl

/-- A number that is not finite is above all the finite ones or above none. -/
theorem le_left_congr (hx : x.toRat? = some a) (hy : y.toRat? = some b) (hz : z.toRat? = none) :
    x.le z = y.le z := by
  obtain ⟨s, m, q, hm, rfl, -⟩ := exists_finite hx
  obtain ⟨t, n, p, hn, rfl, -⟩ := exists_finite hy
  cases z with
  | finite => cases hz
  | _ => rfl

theorem floor_add_half_le (le : a ≤ b) : (a + 1 / 2).floor ≤ (b + 1 / 2).floor := by
  refine Rat.le_floor_iff.mpr (le_trans (Rat.floor_le _) ?_)
  linarith

/-- Rounding keeps the order. -/
theorem round_le_round (le : x.le y = true) : x.round.le y.round = true := by
  cases hx : x.toRat? with
  | none =>
    rw [round_of_toRat?_eq_none hx]
    cases hy : y.toRat? with
    | none => rwa [round_of_toRat?_eq_none hy]
    | some b => rwa [le_right_congr hx (toRat?_round hy) hy]
  | some a =>
    cases hy : y.toRat? with
    | none => rwa [round_of_toRat?_eq_none hy, le_left_congr (toRat?_round hx) hx hy]
    | some b =>
      rw [le_eq hx hy] at le
      rw [le_eq (toRat?_round hx) (toRat?_round hy)]
      have floors := floor_add_half_le (of_decide_eq_true le)
      exact decide_eq_true (by exact_mod_cast floors)

/-- A finite number is rounded to the floor of its value and a half, which is the negative zero just
when it is zero and the number has its sign bit set; other numbers stay. Rounding keeps the order,
and from `2 ^ 52` on it changes nothing. -/
theorem round_exact :
    (∀ (x : Binary64) (r : Rat), x.toRat? = some r →
      x.round.toRat? = some ((r + 1 / 2).floor : Rat) ∧
      (x.round = zero true ↔ (r + 1 / 2).floor = 0 ∧ x.isNegative = true) ∧
      (2 ^ 52 ≤ |r| → x.round = x)) ∧
    (∀ x : Binary64, x.toRat? = none → x.round = x) ∧
    ∀ x y : Binary64, x.le y = true → x.round.le y.round = true :=
  ⟨fun _ _ exact => ⟨toRat?_round exact, round_eq_zero_iff exact, round_of_large exact⟩,
    fun _ exact => round_of_toRat?_eq_none exact, fun _ _ le => round_le_round le⟩

theorem canonical_leastPositive : Canonical 1 (-1074) :=
  canonical_subnormal (by decide)

theorem canonical_belowHalf : Canonical 9007199254740991 (-54) :=
  ⟨by decide, by decide, by decide, .inl (by decide)⟩

theorem canonical_odd : Canonical 4503599627370497 0 :=
  ⟨by decide, by decide, by decide, .inl (by decide)⟩

/-- The negative number next to zero, whose distance to the floor is rounded to one, the number next
below a half, an odd integer of 53 bits, and an infinite number below a zero. -/
theorem round_exact_nextToHalf :
    (finite true 1 (-1074) canonical_leastPositive).toRat? = some (signedRat true 1 (-1074)) ∧
    (finite true 1 (-1074) canonical_leastPositive).round = zero true ∧
    (finite false 9007199254740991 (-54) canonical_belowHalf).round.toRat? = some 0 ∧
    2 ^ 52 ≤ |signedRat false 4503599627370497 0| ∧
    (finite false 4503599627370497 0 canonical_odd).round =
      finite false 4503599627370497 0 canonical_odd ∧
    (infinite true).toRat? = none ∧ (infinite true).round = infinite true ∧
    (infinite true).le (zero false) = true ∧
    (infinite true).round.le (zero false).round = true := by
  obtain ⟨finite_exact, others, order⟩ := round_exact
  have least : (signedRat true 1 (-1074) + 1 / 2).floor = 0 := by decide +kernel
  have next : (signedRat false 9007199254740991 (-54) + 1 / 2).floor = 0 := by decide +kernel
  have large : 2 ^ 52 ≤ |signedRat false 4503599627370497 0| := by
    norm_num [signedRat]
  obtain ⟨value, -, -⟩ := finite_exact (finite false _ _ canonical_belowHalf) _ rfl
  rw [next] at value
  exact ⟨rfl, (finite_exact _ _ rfl).2.1.mpr ⟨least, rfl⟩, value, large,
    (finite_exact _ _ rfl).2.2 large, rfl, others _ rfl, rfl, order _ _ rfl⟩

end Binary64

end SelectionFormula
