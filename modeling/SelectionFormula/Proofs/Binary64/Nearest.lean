import SelectionFormula.Proofs.Decimal.Unsigned

/-!
Rounding takes the nearest number.

`IsNearest` says it without an algorithm: no number is nearer to the rational, and if another one
is equally near the significand is even. For that the infinite numbers stand at the first powers of
two beyond the finite ones (`standing?`). A rational is in the interval of the number it is rounded
to (`contains_round`), and from half way between the last finite number and the power behind it on
it is rounded to infinity (`ofRat_eq_infinite_iff`). So what `ofRat` yields is the nearest number,
and the only one (`isNearest_iff`).
-/

namespace SelectionFormula

open Binary64 RoundingInterval

variable {x : Rat} {m n : Nat} {q r : Int}

/-! ### The interval of what a rational is rounded to -/

/-- The nearest integer is within a half, and at a half it is even. -/
theorem nearestInt_bounds (x : Rat) :
    nearestInt x - 1 / 2 ≤ x ∧ x ≤ nearestInt x + 1 / 2 ∧
      (nearestInt x % 2 = 0 ∨ nearestInt x - 1 / 2 < x ∧ x < nearestInt x + 1 / 2) := by
  have low := Rat.floor_le x
  have high := Rat.lt_floor_add_one x
  push_cast at high
  unfold nearestInt
  dsimp only
  split
  · exact ⟨by linarith, by linarith, .inr ⟨by linarith, by linarith⟩⟩
  · split
    · push_cast
      exact ⟨by linarith, by linarith, .inr ⟨by linarith, by linarith⟩⟩
    · rcases Int.emod_two_eq_zero_or_one x.floor with even | odd
      · rw [even, Int.add_zero]
        exact ⟨by linarith, by linarith, .inl even⟩
      · rw [odd]
        refine ⟨by push_cast; linarith, by push_cast; linarith, .inl (by omega)⟩

theorem cast_shiftLeft (k : Nat) : ((1 <<< k : Nat) : Rat) = 2 ^ k := by
  rw [Nat.shiftLeft_eq, Nat.one_mul, Nat.cast_pow, Nat.cast_ofNat]

/-- What is nearest to a significand is in the interval, if it has all its bits or the unit is the
least one. -/
theorem contains_of_nearest (nearest : nearestInt (x / 2 ^ q) = m)
    (full : q = -1074 ∨ 2 ^ 52 ≤ x / 2 ^ q) : (ofParts m q).contains x = true := by
  obtain ⟨low, high, tie⟩ := nearestInt_bounds (x / 2 ^ q)
  rw [nearest, Int.cast_natCast] at low high tie
  have even : (m : Int) % 2 = 0 → m % 2 = 0 := by omega
  rw [contains_ofParts_iff]
  by_cases power : m = 1 <<< 52 ∧ q ≠ -1074
  · have reached := full.resolve_left power.2
    have bits : (m : Rat) = 2 ^ 52 := by rw [power.1, cast_shiftLeft]
    have := gap_pos m q
    exact ⟨by linarith, high, tie.imp even fun inside => ⟨by linarith, inside.2⟩⟩
  · rw [show gap m q = 1 / 2 from if_neg power]
    exact ⟨low, high, tie.imp_left even⟩

/-- The interval of a power of two reaches a quarter of its unit down. -/
theorem contains_of_carry (low : 2 ^ 53 - 1 / 2 ≤ x / 2 ^ q) (below : x / 2 ^ q < 2 ^ 53) :
    (ofParts (1 <<< 52) (q + 1)).contains x = true := by
  have halved : x / 2 ^ (q + 1) = x / 2 ^ q / 2 := by
    rw [zpow_add_one₀ (by norm_num), div_mul_eq_div_div]
  have quarter : (1 / 4 : Rat) ≤ gap (1 <<< 52) (q + 1) := by
    unfold gap
    split <;> norm_num
  rw [contains_ofParts_iff, halved, cast_shiftLeft]
  exact ⟨by linarith, by linarith, .inl rfl⟩

/-- A positive rational is in the interval of what it is rounded to. -/
theorem contains_round (pos : 0 < x) :
    (ofParts (Format.binary64.round x).1 (Format.binary64.round x).2).contains x = true := by
  obtain ⟨below, full⟩ := Format.binary64.scaled_bounds (by decide) pos
  have scaled : 0 ≤ x / 2 ^ Format.binary64.quantum x := by positivity
  obtain ⟨k, nearest⟩ := Int.eq_ofNat_of_zero_le
    (le_nearestInt (n := 0) (by exact_mod_cast scaled) : 0 ≤ nearestInt _)
  rw [Format.round, nearest, Int.toNat_natCast]
  split
  · next carry =>
    obtain ⟨low, -, -⟩ := nearestInt_bounds (x / 2 ^ Format.binary64.quantum x)
    rw [nearest, carry, Int.cast_natCast, cast_shiftLeft] at low
    exact contains_of_carry low below
  · exact contains_of_nearest nearest full

/-! ### Beyond the finite numbers -/

/-- The unit in the last place of the greatest finite numbers. -/
def lastUnit : Rat :=
  2 ^ (971 : Int)

theorem lastUnit_pos : 0 < lastUnit :=
  zpow_pos (by norm_num) _

/-- No finite number has a greater unit. -/
theorem unit_le (fits : q ≤ 971) : (2 : Rat) ^ q ≤ lastUnit :=
  zpow_le_zpow_right₀ (by norm_num) fits

/-- The middle between the greatest finite number and the power of two behind it. -/
def overflow : Rat :=
  (2 ^ 53 - 1 / 2) * lastUnit

/-- What is rounded with a greater exponent than the format has is no less than the middle. -/
theorem overflow_le (pos : 0 < x) (large : 971 < (Format.binary64.round x).2) : overflow ≤ x := by
  obtain ⟨-, full⟩ := Format.binary64.scaled_bounds (by decide) pos
  change Format.binary64.quantum x = -1074 ∨ 2 ^ 52 ≤ x / 2 ^ Format.binary64.quantum x at full
  obtain ⟨low, -, -⟩ := nearestInt_bounds (x / 2 ^ Format.binary64.quantum x)
  unfold Format.round at large
  dsimp only at large
  generalize Format.binary64.quantum x = q at *
  have unit : (0 : Rat) < 2 ^ q := by positivity
  unfold overflow
  split at large
  · next carry =>
    have bits : nearestInt (x / 2 ^ q) = (1 <<< 53 : Nat) := by
      change _ = 1 <<< 53 at carry
      omega
    rw [bits, Int.cast_natCast, cast_shiftLeft, le_div_iff₀ unit] at low
    refine le_trans ?_ low
    exact mul_le_mul_of_nonneg_left (zpow_le_zpow_right₀ (by norm_num) (by omega)) (by norm_num)
  · have reached := (le_div_iff₀ unit).mp (full.resolve_left (by omega))
    refine le_trans ?_ reached
    calc
      (2 ^ 53 - 1 / 2) * lastUnit ≤ 2 ^ 52 * (lastUnit * 2) := by linarith [lastUnit_pos]
      _ = 2 ^ 52 * 2 ^ (971 + 1 : Int) := by rw [zpow_add_one₀ (by norm_num), lastUnit]
      _ ≤ 2 ^ 52 * 2 ^ q :=
        mul_le_mul_of_nonneg_left (zpow_le_zpow_right₀ (by norm_num) (by omega)) (by norm_num)

/-- A rational that is not negative is in the interval of its number, or its number is infinite. -/
theorem ofRat_cases (nonneg : 0 ≤ x) :
    (∃ m q canonical, ofRat false x = .finite false m q canonical ∧
      (ofParts m q).contains x = true) ∨ ofRat false x = .infinite false ∧ overflow ≤ x := by
  rcases nonneg.eq_or_lt with rfl | pos
  · refine .inl ⟨0, -1074, canonical_zero, by rw [ofRat, dif_pos rfl]; rfl, ?_⟩
    simpa using contains_self 0 (-1074)
  have abs_eq : x.abs = x := Rat.abs_of_nonneg nonneg
  have sign : decide (x < 0) = false := decide_eq_false (not_lt.mpr nonneg)
  by_cases fits : (Format.binary64.round x).2 ≤ 971
  · refine .inl ⟨_, _, round_canonical pos fits, ?_, contains_round pos⟩
    rw [ofRat, dif_neg pos.ne']
    simp only [abs_eq, sign, dif_pos fits]
  · refine .inr ⟨?_, overflow_le pos (by omega)⟩
    rw [ofRat, dif_neg pos.ne']
    simp only [abs_eq, sign, dif_neg fits]

/-- The interval of a finite number ends before the middle behind the greatest one, or is that
number's, which is odd. -/
theorem lt_overflow_of_contains (canonical : Canonical m q)
    (inside : (ofParts m q).contains x = true) : x < overflow := by
  obtain ⟨-, high, tie⟩ := contains_ofParts_iff.mp inside
  have unit : (0 : Rat) < 2 ^ q := by positivity
  have coarsest := unit_le canonical.le_greatest
  have strict : x / 2 ^ q < 2 ^ 53 - 1 / 2 := by
    have bits : m + 1 ≤ 2 ^ 53 := canonical.significand_lt
    rcases Nat.eq_or_lt_of_le bits with last | less
    · have bits : (m : Rat) + 1 = 2 ^ 53 := by exact_mod_cast last
      have inside := tie.resolve_left (by omega)
      linarith
    · have bits : (m : Rat) + 1 + 1 ≤ 2 ^ 53 := by exact_mod_cast less
      linarith
  calc
    x < (2 ^ 53 - 1 / 2) * 2 ^ q := (div_lt_iff₀ unit).mp strict
    _ ≤ overflow := mul_le_mul_of_nonneg_left coarsest (by norm_num)

theorem ofRat_eq_infinite_iff (nonneg : 0 ≤ x) :
    ofRat false x = .infinite false ↔ overflow ≤ x := by
  rcases ofRat_cases nonneg with ⟨m, q, canonical, finite, inside⟩ | ⟨infinite, beyond⟩
  · rw [finite]
    exact iff_of_false nofun (not_le.mpr (lt_overflow_of_contains canonical inside))
  · exact iff_of_true infinite beyond

/-! ### Nearest -/

namespace Binary64

/-- Where a number stands among the rationals. The infinite numbers stand at the first powers of
two beyond the finite ones. -/
def standing? : Binary64 → Option Rat
  | .nan => none
  | .infinite negative => some (signedRat negative 1 1024)
  | .finite negative m q _ => some (signedRat negative m q)

/-- Whether the last bit of the significand is clear; that of an infinite number is. -/
def isEven : Binary64 → Bool
  | .finite _ m _ _ => m % 2 == 0
  | _ => true

/-- One number is nearer to a rational than another one, or it is as near and either the two are
the same or the first is even. -/
def Nearer (r a b : Rat) (even : Bool) : Prop :=
  |r - a| < |r - b| ∨ |r - a| = |r - b| ∧ (a = b ∨ even = true)

/-- A number with a clear sign bit is the nearest one to a rational. -/
def IsNearest (x : Binary64) (r : Rat) : Prop :=
  x.isNegative = false ∧ ∃ a, x.standing? = some a ∧
    ∀ y b, Binary64.standing? y = some b → Nearer r a b x.isEven

section Distances

variable {s a b d : Rat} {even : Bool}

/-- No further than half of the way to a greater number. -/
theorem nearer_of_above (way : 0 < d) (apart : a + d ≤ b) (high : s ≤ a + d / 2)
    (tie : even = true ∨ s < a + d / 2) : Nearer s a b even := by
  have near : |s - a| ≤ |s - b| := by
    rcases abs_cases (s - a) with h | h <;> rcases abs_cases (s - b) with h' | h' <;> linarith
  rcases near.lt_or_eq with less | same
  · exact .inl less
  · refine .inr ⟨same, .inr (tie.resolve_right fun strict => ?_)⟩
    rcases abs_cases (s - a) with h | h <;> rcases abs_cases (s - b) with h' | h' <;> linarith

theorem Nearer.neg (nearer : Nearer (-s) (-a) (-b) even) : Nearer s a b even := by
  have flip : ∀ c : Rat, |-s - -c| = |s - c| := fun c => by rw [neg_sub_neg, abs_sub_comm]
  unfold Nearer at nearer ⊢
  rwa [flip, flip, neg_inj] at nearer

/-- No further than half of the way to a smaller number. -/
theorem nearer_of_below (way : 0 < d) (apart : b + d ≤ a) (low : a - d / 2 ≤ s)
    (tie : even = true ∨ a - d / 2 < s) : Nearer s a b even := by
  refine Nearer.neg (nearer_of_above way ?_ ?_ ?_)
  · linarith
  · linarith
  · exact tie.imp_right fun strict => by linarith

/-- What is between two rationals as far from a third one is nearer to it than they are. -/
theorem lt_of_between {t : Rat} (low : a < t) (high : t < b) (same : |s - a| = |s - b|) :
    |s - t| < |s - a| := by
  rcases abs_cases (s - a) with h | h <;> rcases abs_cases (s - b) with h' | h' <;>
    rcases abs_cases (s - t) with h'' | h'' <;> linarith

end Distances

section Standing

variable {y z : Binary64} {a b c : Rat}

theorem signedRat_not (negative : Bool) (n : Nat) (r : Int) :
    signedRat (!negative) n r = -signedRat negative n r := by
  cases negative <;> simp [signedRat]

theorem standing?_neg (stands : y.standing? = some b) : y.neg.standing? = some (-b) := by
  cases y with
  | nan => cases stands
  | infinite negative =>
    rw [← Option.some.inj stands, ← signedRat_not]
    rfl
  | finite negative n r canonical =>
    rw [← Option.some.inj stands, ← signedRat_not]
    rfl

theorem isNegative_neg (negative : y.isNegative = true) : y.neg.isNegative = false := by
  cases y with
  | nan => cases negative
  | infinite sign => exact congrArg not negative
  | finite sign n r canonical => exact congrArg not negative

theorem standing_nonneg (positive : y.isNegative = false) (stands : y.standing? = some b) :
    0 ≤ b := by
  cases y with
  | nan => cases stands
  | infinite negative =>
    obtain rfl : negative = false := positive
    exact Option.some.inj stands ▸ signedRat_nonneg 1 1024
  | finite negative n r canonical =>
    obtain rfl : negative = false := positive
    exact Option.some.inj stands ▸ signedRat_nonneg n r

/-- The infinite number stands half a unit behind the middle, and the finite ones as far before
it. -/
theorem standing_infinite : signedRat false 1 1024 = overflow + lastUnit / 2 := by
  have power : (2 : Rat) ^ (1024 : Int) = 2 ^ 53 * lastUnit := by
    rw [lastUnit, ← zpow_natCast, ← zpow_add₀ (by norm_num)]
    rfl
  rw [signedRat, Nat.cast_one, one_mul, power, overflow]
  simp only [Bool.false_eq_true, if_false]
  ring

theorem finite_le (canonical : Canonical m q) :
    m * 2 ^ q + lastUnit ≤ signedRat false 1 1024 := by
  have bits : (m : Rat) + 1 ≤ 2 ^ 53 := by exact_mod_cast canonical.significand_lt
  have size : (m : Rat) * 2 ^ q ≤ (2 ^ 53 - 1) * lastUnit :=
    mul_le_mul (by linarith) (unit_le canonical.le_greatest) (by positivity) (by norm_num)
  rw [standing_infinite, overflow]
  linarith

/-- Where another number without a sign stands: a unit above a finite one or more, or at least
twice as far below it as its interval goes. -/
theorem standing_apart_of_unsigned (canonical : Canonical m q) (positive : y.isNegative = false)
    (stands : y.standing? = some b) :
    b = m * 2 ^ q ∨ m * 2 ^ q + 2 ^ q ≤ b ∨ b + 2 * gap m q * 2 ^ q ≤ m * 2 ^ q := by
  cases y with
  | nan => cases stands
  | infinite negative =>
    obtain rfl : negative = false := positive
    have coarsest := unit_le canonical.le_greatest
    have behind := finite_le canonical
    rw [Option.some.inj stands] at behind
    exact .inr (.inl (by linarith))
  | finite negative n r canonical' =>
    obtain rfl : negative = false := positive
    obtain rfl : (n : Rat) * 2 ^ r = b := Option.some.inj stands
    rcases lt_trichotomy ((n : Rat) * 2 ^ r) (m * 2 ^ q) with below | same | above
    · exact .inr (.inr (units_apart canonical' canonical below).2)
    · exact .inl same
    · exact .inr (.inl (units_apart canonical canonical' above).1)

/-- Where another number stands: a unit above a finite one without a sign or more, or at least
twice as far below it as its interval goes. -/
theorem standing_apart (canonical : Canonical m q) (stands : y.standing? = some b) :
    b = m * 2 ^ q ∨ m * 2 ^ q + 2 ^ q ≤ b ∨ b + 2 * gap m q * 2 ^ q ≤ m * 2 ^ q := by
  cases sign : y.isNegative with
  | false => exact standing_apart_of_unsigned canonical sign stands
  | true =>
    have unit : (0 : Rat) < 2 ^ q := by positivity
    have positive := isNegative_neg sign
    have opposite := standing?_neg stands
    have nonneg := standing_nonneg positive opposite
    have zero : (Binary64.zero false).standing? = some 0 := by
      simp [Binary64.zero, standing?, signedRat]
    have size : (0 : Rat) ≤ m * 2 ^ q := by positivity
    have reach : 0 < 2 * gap m q * 2 ^ q := by
      have := gap_pos m q
      positivity
    rcases standing_apart_of_unsigned canonical rfl zero with none | above | below
    · -- The finite number is zero, and what is as far below it is as far above it.
      have reach_le : 2 * gap m q * 2 ^ q ≤ 2 ^ q := by
        have := gap_le m q
        nlinarith
      rcases standing_apart_of_unsigned canonical positive opposite with same | above | below
      · exact .inl (by linarith)
      · exact .inr (.inr (by linarith))
      · linarith
    · linarith
    · exact .inr (.inr (by linarith))

/-- A finite number is the nearest one to what its interval contains. -/
theorem isNearest_of_contains (canonical : Canonical m q)
    (inside : (RoundingInterval.ofParts m q).contains c = true) :
    IsNearest (.finite false m q canonical) c := by
  have unit : (0 : Rat) < 2 ^ q := by positivity
  have gap_pos := gap_pos m q
  obtain ⟨low, high, tie⟩ := contains_ofParts_iff.mp inside
  rw [le_div_iff₀ unit, lt_div_iff₀ unit] at *
  rw [div_le_iff₀ unit, div_lt_iff₀ unit] at *
  have even : m % 2 = 0 → (Binary64.finite false m q canonical).isEven = true := by
    simp [isEven]
  refine ⟨rfl, m * 2 ^ q, rfl, fun y b stands => ?_⟩
  rcases standing_apart canonical stands with rfl | above | below
  · exact .inr ⟨rfl, .inl rfl⟩
  · exact nearer_of_above unit above (by linarith) (tie.imp even fun inside => by linarith)
  · refine nearer_of_below (d := 2 * gap m q * 2 ^ q) (by positivity) below ?_ ?_
    · linarith
    · exact tie.imp even fun inside => by linarith

/-- Every number but the infinite one is as far below it as the greatest finite one. -/
theorem standing_below (stands : y.standing? = some b) :
    y = .infinite false ∨ b + lastUnit ≤ signedRat false 1 1024 := by
  cases sign : y.isNegative with
  | false =>
    cases y with
    | nan => cases stands
    | infinite negative => exact .inl (congrArg infinite sign)
    | finite negative n r canonical =>
      obtain rfl : negative = false := sign
      exact .inr (Option.some.inj stands ▸ finite_le canonical)
  | true =>
    have nonpos := standing_nonneg (isNegative_neg sign) (standing?_neg stands)
    have least := finite_le canonical_zero
    rw [Nat.cast_zero, zero_mul] at least
    exact .inr (by linarith)

/-- The infinite number is the nearest one to what is not below the middle. -/
theorem isNearest_infinite (beyond : overflow ≤ c) : IsNearest (.infinite false) c := by
  have unit := lastUnit_pos
  refine ⟨rfl, _, rfl, fun y b stands => ?_⟩
  rcases standing_below stands with rfl | below
  · obtain rfl : signedRat false 1 1024 = b := Option.some.inj stands
    exact .inr ⟨rfl, .inl rfl⟩
  · refine nearer_of_below unit below ?_ (.inl rfl)
    rw [standing_infinite]
    linarith

theorem unsigned_of_standing (positive : y.isNegative = false) (stands : y.standing? = some b) :
    Unsigned y := by
  refine ⟨?_, positive⟩
  cases y with
  | nan => cases stands
  | _ => rfl

/-- Numbers without a sign that stand at the same place are the same. -/
theorem eq_of_standing (positive : y.isNegative = false) (stands : y.standing? = some a)
    (positive' : z.isNegative = false) (stands' : z.standing? = some a) : y = z := by
  have unit := lastUnit_pos
  rcases (unsigned_of_standing positive stands).cases with rfl | ⟨m, q, canonical, rfl⟩ <;>
    rcases (unsigned_of_standing positive' stands').cases with rfl | ⟨n, r, canonical', rfl⟩
  · rfl
  · obtain rfl : (n : Rat) * 2 ^ r = a := Option.some.inj stands'
    have apart := finite_le canonical'
    rw [Option.some.inj stands] at apart
    linarith
  · obtain rfl : (m : Rat) * 2 ^ q = a := Option.some.inj stands
    have apart := finite_le canonical
    rw [Option.some.inj stands'] at apart
    linarith
  · obtain ⟨rfl, rfl⟩ := canonical_unique canonical canonical'
      ((Option.some.inj stands).trans (Option.some.inj stands').symm)
    rfl

/-- Between two even numbers there is another one. -/
theorem exists_between (positive : y.isNegative = false) (stands : y.standing? = some a)
    (even : y.isEven = true) (positive' : z.isNegative = false) (stands' : z.standing? = some b)
    (even' : z.isEven = true) (less : a < b) :
    ∃ w s, Binary64.standing? w = some s ∧ a < s ∧ s < b := by
  have lastUnit_pos := lastUnit_pos
  cases y with
  | nan => cases stands
  | infinite negative =>
    obtain rfl : negative = false := positive
    have same : signedRat false 1 1024 = a := Option.some.inj stands
    rcases standing_below stands' with rfl | below
    · exact absurd (Option.some.inj stands') (same ▸ less.ne)
    · linarith
  | finite negative m q canonical =>
    obtain rfl : negative = false := positive
    obtain rfl : (m : Rat) * 2 ^ q = a := Option.some.inj stands
    have unit : (0 : Rat) < 2 ^ q := by positivity
    have even : m % 2 = 0 := by simpa [isEven] using even
    have next : Canonical (m + 1) q := by
      obtain ⟨bits, least, greatest, full⟩ := canonical
      exact ⟨by omega, least, greatest, by omega⟩
    have behind : m * 2 ^ q + 2 ^ q ≤ b := by
      have gap_pos := gap_pos m q
      rcases standing_apart canonical stands' with same | above | below
      · exact absurd same less.ne'
      · exact above
      · nlinarith
    have successor : (m + 1 : Nat) * 2 ^ q = (m * 2 ^ q + 2 ^ q : Rat) := by
      push_cast
      ring
    refine ⟨.finite false (m + 1) q next, (m + 1 : Nat) * 2 ^ q, rfl, ?_, ?_⟩
    · linarith
    · refine lt_of_le_of_ne (by linarith) fun same => ?_
      rw [← same] at stands'
      have equal := eq_of_standing (y := .finite false (m + 1) q next) rfl rfl positive' stands'
      rw [← equal] at even'
      have : (m + 1) % 2 = 0 := by simpa [isEven] using even'
      omega

/-- There is one nearest number. -/
theorem IsNearest.unique (left : IsNearest y c) (right : IsNearest z c) : y = z := by
  obtain ⟨positive, a, stands, nearest⟩ := left
  obtain ⟨positive', b, stands', nearest'⟩ := right
  have first := nearest z b stands'
  have second := nearest' y a stands
  have same : |c - a| = |c - b| := by
    rcases first with less | ⟨same, -⟩
    · rcases second with less' | ⟨same, -⟩
      · exact absurd less' less.asymm
      · exact same.symm
    · exact same
  by_cases place : a = b
  · subst place
    exact eq_of_standing positive stands positive' stands'
  -- Otherwise both are even, and what is between them is nearer than they are.
  exfalso
  have even : y.isEven = true :=
    (first.resolve_left same.not_lt).2.resolve_left place
  have even' : z.isEven = true :=
    (second.resolve_left same.symm.not_lt).2.resolve_left (Ne.symm place)
  have between : ∃ w s, Binary64.standing? w = some s ∧ |c - s| < |c - a| := by
    rcases lt_or_gt_of_ne place with less | less
    · obtain ⟨w, s, at_s, low, high⟩ :=
        exists_between positive stands even positive' stands' even' less
      exact ⟨w, s, at_s, lt_of_between low high same⟩
    · obtain ⟨w, s, at_s, low, high⟩ :=
        exists_between positive' stands' even' positive stands even less
      exact ⟨w, s, at_s, same ▸ lt_of_between low high same.symm⟩
  obtain ⟨w, s, at_s, nearer⟩ := between
  rcases nearest w s at_s with less | ⟨same, -⟩
  · exact absurd less nearer.asymm
  · exact absurd nearer same.not_gt

end Standing

/-- A rational that is not negative is rounded to the number nearest to it, and to no other. -/
theorem isNearest_iff {y : Binary64} {c : Rat} (nonneg : 0 ≤ c) :
    IsNearest y c ↔ y = ofRat false c := by
  have nearest : IsNearest (ofRat false c) c := by
    rcases ofRat_cases nonneg with ⟨m, q, canonical, finite, inside⟩ | ⟨infinite, beyond⟩
    · rw [finite]
      exact isNearest_of_contains canonical inside
    · rw [infinite]
      exact isNearest_infinite beyond
  exact ⟨fun other => other.unique nearest, fun same => same ▸ nearest⟩

end Binary64

end SelectionFormula
