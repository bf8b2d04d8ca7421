import SelectionFormula.Binary64.Arithmetic
import SelectionFormula.Proofs.Binary64.Interval

/-!
Where rounding changes nothing.

A rational that a finite number stands for is rounded to that number
(`toRat?_ofRat`). Integers up to `2 ^ 53` are such rationals, and so are those below it in any unit
of the format (`representable_units`). A finite number is an integer or is below `2 ^ 52`
(`integer_or_small`), so its integer part is such a rational too (`toRat?_trunc`). A sum or a
remainder is exact when it is such a rational (`toRat?_add`, `toRat?_rem`). The comparisons of finite
numbers are those of their values (`lt_eq`, `le_eq`).
-/

namespace SelectionFormula.Binary64

variable {x y : Binary64} {a b r : Rat}

/-! ### Comparisons -/

theorem lt_eq (hx : x.toRat? = some a) (hy : y.toRat? = some b) : x.lt y = decide (a < b) := by
  cases x <;> cases hx
  cases y <;> cases hy
  rfl

theorem le_eq (hx : x.toRat? = some a) (hy : y.toRat? = some b) : x.le y = decide (a ≤ b) := by
  rw [le, lt_eq hx hy]
  cases x <;> cases hx
  cases y <;> cases hy
  simp only [sameNumber, beq_eq_decide, ← Bool.decide_or, le_iff_lt_or_eq]

/-! ### Values that are kept -/

/-- What rounds to itself: zero, and what a finite number stands for. -/
def Representable (r : Rat) : Prop :=
  ∃ negative m q, Canonical m q ∧ r = signedRat negative m q

theorem contains_self (m : Nat) (q : Int) : (RoundingInterval.ofParts m q).contains ((m : Rat) * 2 ^ q) = true := by
  have unit : (0 : Rat) < 2 ^ q := by positivity
  have := gap_pos m q
  rw [contains_ofParts_iff, mul_div_cancel_right₀ _ unit.ne']
  exact ⟨by linarith, by linarith, .inr ⟨by linarith, by linarith⟩⟩

/-- The form of a finite number is the only one of its value. -/
theorem canonical_unique {m n : Nat} {q r : Int} (hm : Canonical m q) (hn : Canonical n r)
    (same : signedRat false m q = signedRat false n r) : m = n ∧ q = r := by
  have unit : ∀ e : Int, (0 : Rat) < 2 ^ e := fun e => by positivity
  simp only [signedRat, Bool.false_eq_true, if_false] at same
  rcases Nat.eq_zero_or_pos m with rfl | positive
  · have none : (n : Rat) = 0 := by
      rw [Nat.cast_zero, zero_mul] at same
      exact (mul_eq_zero.mp same.symm).resolve_right (unit r).ne'
    obtain rfl : n = 0 := by exact_mod_cast none
    have least : ∀ {e : Int}, Canonical 0 e → e = -1074 :=
      fun canonical => canonical.full_or_least.resolve_left (by decide)
    exact ⟨rfl, (least hm).trans (least hn).symm⟩
  · have positive' : 0 < n := by
      rcases Nat.eq_zero_or_pos n with rfl | positive'
      · rw [Nat.cast_zero, zero_mul] at same
        have := mul_pos (show (0 : Rat) < m by exact_mod_cast positive) (unit q)
        exact absurd same this.ne'
      · exact positive'
    have first := round_of_contains hm positive (contains_self m q)
    rw [same, round_of_contains hn positive' (contains_self n r)] at first
    exact ⟨(congrArg Prod.fst first).symm, (congrArg Prod.snd first).symm⟩

/-- A representable rational is rounded to itself. -/
theorem toRat?_ofRat (sign : Bool) (kept : Representable r) : (ofRat sign r).toRat? = some r := by
  obtain ⟨negative, m, q, canonical, rfl⟩ := kept
  have unit : (0 : Rat) < 2 ^ q := by positivity
  rcases Nat.eq_zero_or_pos m with rfl | positive
  · have zero : signedRat negative 0 q = 0 := by simp [signedRat]
    rw [zero, ofRat, dif_pos rfl]
    simp [Binary64.zero, toRat?, signedRat]
  · have magnitude : (0 : Rat) < m * 2 ^ q := mul_pos (by exact_mod_cast positive) unit
    have size : (signedRat negative m q).abs = m * 2 ^ q := by
      cases negative
      · exact Rat.abs_of_nonneg magnitude.le
      · simp only [signedRat, if_true]
        rw [Rat.abs_of_nonpos (by linarith), Rat.neg_neg]
    have rounded := round_of_contains canonical positive (contains_self m q)
    have nonzero : signedRat negative m q ≠ 0 := by
      cases negative <;> simp only [signedRat] <;> grind
    rw [ofRat, dif_neg nonzero]
    simp only [size, rounded, dif_pos canonical.le_greatest, toRat?]
    cases negative <;> simp [signedRat, magnitude, magnitude.le] 

/-- Integers of at most 53 bits in a unit that the format has. -/
theorem representable_units {n : Nat} {q : Int} (few : n < 2 ^ 53) (least : -1074 ≤ q)
    (greatest : q ≤ 971) : Representable (n * 2 ^ q) := by
  rcases Nat.eq_zero_or_pos n with rfl | positive
  · exact ⟨false, 0, -1074, canonical_zero, by simp [signedRat]⟩
  -- The significand is shifted up until its first bit is the last of the 53 or the unit the least.
  obtain ⟨k, k_le, room, ends⟩ : ∃ k : Nat, k ≤ 52 - n.log2 ∧ -1074 ≤ q - k ∧
      (k = 52 - n.log2 ∨ q - k = -1074) :=
    ⟨min (52 - n.log2) (q + 1074).toNat, by omega, by omega, by omega⟩
  have low : 2 ^ n.log2 ≤ n := Nat.log2_self_le positive.ne'
  have high : n < 2 ^ (n.log2 + 1) := Nat.lt_log2_self
  have bits : n.log2 ≤ 52 := by
    have := (Nat.pow_lt_pow_iff_right (a := 2) (by decide)).mp (Nat.lt_of_le_of_lt low few)
    omega
  have shift : 2 ^ n.log2 * 2 ^ (52 - n.log2) = 2 ^ 52 := by
    rw [← Nat.pow_add, Nat.add_sub_cancel' bits]
  refine ⟨false, n * 2 ^ k, q - k, ⟨?_, room, by omega, ends.imp_left fun same => ?_⟩, ?_⟩
  · calc
      n * 2 ^ k < 2 ^ (n.log2 + 1) * 2 ^ k := (Nat.mul_lt_mul_right (Nat.two_pow_pos k)).mpr high
      _ ≤ 2 ^ (n.log2 + 1) * 2 ^ (52 - n.log2) :=
        Nat.mul_le_mul_left _ (Nat.pow_le_pow_right (by decide) k_le)
      _ = 1 <<< 53 := by rw [Nat.pow_succ, Nat.mul_right_comm, shift]; rfl
  · calc
      1 <<< 52 = 2 ^ n.log2 * 2 ^ k := by rw [same, shift]; rfl
      _ ≤ n * 2 ^ k := Nat.mul_le_mul_right _ low
  · have unit : (2 : Rat) ^ k * 2 ^ (q - k) = 2 ^ q := by
      rw [← zpow_natCast, ← zpow_add₀ (by norm_num), add_sub_cancel]
    simp only [signedRat, Bool.false_eq_true, if_false]
    push_cast
    rw [mul_assoc, unit]

/-- Natural numbers of at most 53 bits. -/
theorem representable_natCast {n : Nat} (few : n ≤ 2 ^ 53) : Representable n := by
  rcases Nat.eq_or_lt_of_le few with rfl | less
  · exact ⟨false, 1 <<< 52, 1, ⟨by decide, by decide, by decide, .inl (Nat.le_refl _)⟩,
      by simp [signedRat, Nat.shiftLeft_eq]; norm_num⟩
  · simpa using representable_units less (q := 0) (by decide) (by decide)

theorem Representable.neg (kept : Representable r) : Representable (-r) := by
  obtain ⟨negative, m, q, canonical, rfl⟩ := kept
  exact ⟨!negative, m, q, canonical, by cases negative <;> simp [signedRat]⟩

theorem representable_intCast {i : Int} (few : i.natAbs ≤ 2 ^ 53) : Representable i := by
  obtain ⟨n, rfl | rfl⟩ := i.eq_nat_or_neg
  · rw [Int.natAbs_natCast] at few
    exact_mod_cast representable_natCast few
  · rw [Int.natAbs_neg, Int.natAbs_natCast] at few
    exact_mod_cast (representable_natCast few).neg

theorem truncate_intCast (i : Int) : truncate (i : Rat) = i := by
  unfold truncate
  split
  · exact Rat.floor_intCast i
  · exact Rat.ceil_intCast i

/-- The integer part of a rational is no further from zero. -/
theorem natAbs_truncate_le {n : Nat} (above : -(n : Rat) ≤ r) (below : r ≤ n) :
    (truncate r).natAbs ≤ n := by
  unfold truncate
  split
  · next nonneg =>
    have low : 0 ≤ r.floor := Rat.le_floor_iff.mpr (by exact_mod_cast nonneg)
    have high : (r.floor : Rat) ≤ n := (Rat.floor_le r).trans below
    have high' : r.floor ≤ n := by exact_mod_cast high
    omega
  · next negative =>
    have high : r.ceil ≤ 0 := Rat.ceil_le_iff.mpr (by exact_mod_cast (not_le.mp negative).le)
    have low : -(n : Rat) - 1 < r := by linarith
    have low' : -(n : Int) - 1 < r.ceil := Rat.lt_ceil_iff.mpr (by exact_mod_cast low)
    omega

theorem abs_signedRat (negative : Bool) (m : Nat) (q : Int) :
    |signedRat negative m q| = m * 2 ^ q := by
  have nonneg : (0 : Rat) ≤ m * 2 ^ q := by positivity
  cases negative
  · exact abs_of_nonneg nonneg
  · exact (abs_neg _).trans (abs_of_nonneg nonneg)

/-- A finite number is an integer, or it has places behind the point and is below `2 ^ 52` in
size. -/
theorem integer_or_small (negative : Bool) {m : Nat} {q : Int} (canonical : Canonical m q) :
    (∃ i : Int, signedRat negative m q = i) ∨ q < 0 ∧ |signedRat negative m q| < 2 ^ 52 := by
  rcases Int.lt_or_le q 0 with places | whole
  · have unit : (2 : Rat) ^ q ≤ 2 ^ (-1 : Int) := zpow_le_zpow_right₀ (by norm_num) (by omega)
    have bits : (m : Rat) < 2 ^ 53 := by exact_mod_cast canonical.significand_lt
    refine .inr ⟨places, ?_⟩
    calc
      |signedRat negative m q| = m * 2 ^ q := abs_signedRat negative m q
      _ ≤ m * 2 ^ (-1 : Int) := mul_le_mul_of_nonneg_left unit (Nat.cast_nonneg m)
      _ < 2 ^ 53 * 2 ^ (-1 : Int) := mul_lt_mul_of_pos_right bits (by positivity)
      _ = 2 ^ 52 := by norm_num
  · obtain ⟨k, rfl⟩ := Int.eq_ofNat_of_zero_le whole
    refine .inl ⟨if negative then -(m * 2 ^ k : Int) else m * 2 ^ k, ?_⟩
    cases negative <;> simp [signedRat]

/-- The integer part of a finite number is representable: it is below `2 ^ 52`, or it is the number
itself. -/
theorem representable_truncate (negative : Bool) {m : Nat} {q : Int} (canonical : Canonical m q) :
    Representable (truncate (signedRat negative m q)) := by
  rcases integer_or_small negative canonical with ⟨i, integer⟩ | ⟨-, small⟩
  · rw [integer, truncate_intCast, ← integer]
    exact ⟨negative, m, q, canonical, rfl⟩
  · obtain ⟨low, high⟩ := abs_lt.mp small
    refine representable_intCast (natAbs_truncate_le ?_ ?_) <;> push_cast <;> linarith

theorem toRat?_trunc (negative : Bool) {m : Nat} {q : Int} (canonical : Canonical m q) :
    (trunc (.finite negative m q canonical)).toRat? =
      some (truncate (signedRat negative m q) : Rat) :=
  toRat?_ofRat negative (representable_truncate negative canonical)

theorem toRat?_ofNat {n : Nat} (few : n ≤ 2 ^ 53) : (ofNat n).toRat? = some (n : Rat) :=
  toRat?_ofRat false (representable_natCast few)

theorem toRat?_ofInt {i : Int} (few : i.natAbs ≤ 2 ^ 53) : (ofInt i).toRat? = some (i : Rat) :=
  toRat?_ofRat false (representable_intCast few)

theorem toRat?_zero (negative : Bool) : (zero negative).toRat? = some 0 := by
  simp [zero, toRat?, signedRat]

/-- Beyond the finite numbers a natural number is infinite. -/
theorem ofNat_cases (n : Nat) : (∃ r, (ofNat n).toRat? = some r) ∨ ofNat n = .infinite false := by
  unfold ofNat ofRat
  split
  · exact .inl ⟨0, toRat?_zero false⟩
  · dsimp only
    split
    · exact .inl ⟨_, rfl⟩
    · refine .inr (congrArg infinite (decide_eq_false ?_))
      exact not_lt.mpr (by exact_mod_cast Nat.zero_le n)

/-! ### Arithmetic that rounds nothing -/

/-- A sum of finite numbers is rounded once, and a zero one is negative when both terms are. -/
theorem add_eq_ofRat (hx : x.toRat? = some a) (hy : y.toRat? = some b) :
    x.add y = ofRat (x.isNegative && y.isNegative) (a + b) := by
  cases x <;> cases hx
  cases y <;> cases hy
  rfl

theorem toRat?_add (hx : x.toRat? = some a) (hy : y.toRat? = some b)
    (kept : Representable (a + b)) : (x.add y).toRat? = some (a + b) := by
  rw [add_eq_ofRat hx hy]
  exact toRat?_ofRat _ kept

theorem toRat?_rem (hx : x.toRat? = some a) (hy : y.toRat? = some b) (nonzero : b ≠ 0)
    (kept : Representable (a - b * truncate (a / b))) :
    (x.rem y).toRat? = some (a - b * truncate (a / b)) := by
  cases x <;> cases hx
  cases y <;> cases hy
  rename_i n r _
  have some_bit : n ≠ 0 := by
    rintro rfl
    exact nonzero (by simp [signedRat])
  rw [rem, if_neg some_bit]
  exact toRat?_ofRat _ kept

theorem toNat_eq {i : Int} (hx : x.toRat? = some (i : Rat)) : x.toNat = i.toNat := by
  cases x with
  | finite negative m q canonical =>
    rw [toNat, Option.some.inj hx, Rat.floor_intCast]
  | _ => cases hx

end SelectionFormula.Binary64
