import Mathlib.Data.List.TakeWhile
import SelectionFormula.Decimal.Layout
import SelectionFormula.Proofs.Decimal.Literal
import SelectionFormula.Proofs.Decimal.Shortest

/-!
A number's text reads back as the number.

The digits of the shortest decimal without their zeros at the end, laid out around
the point, denote the same decimal (`rational?_layout`), and a decimal literal is
rounded once from the rational it denotes whatever its size
(`decimal?_eq_rational?`). The sizes at which the layout changes are those of numbers, so
it makes no difference whether a number or its shortest decimal is compared with them
(`point_iff`).
-/

namespace SelectionFormula

open Binary64 RoundingInterval

/-! ### What a decimal literal is worth -/

/-- A positive natural number lies between powers of ten by its number of digits. -/
theorem toDigits_bounds {n : Nat} (positive : 0 < n) :
    (10 : Rat) ^ (((Nat.toDigits 10 n).length : Int) - 1) ≤ n ∧
      (n : Rat) < 10 ^ ((Nat.toDigits 10 n).length : Int) := by
  have some_digit := Nat.length_toDigits_pos (b := 10) (n := n)
  have low := isNatLog_log10.le positive.ne'
  have high := isNatLog_log10.lt positive.ne'
  rw [log10, Nat.cast_ofNat] at low high
  rw [Nat.sub_add_cancel some_digit] at high
  refine ⟨?_, by rwa [zpow_natCast]⟩
  have cast : ((Nat.toDigits 10 n).length : Int) - 1 = ((Nat.toDigits 10 n).length - 1 : Nat) := by
    omega
  rwa [cast, zpow_natCast]

/-- The leading digit of a decimal tells its size. -/
theorem pointPosition_bounds {d : Decimal} (positive : 0 < d.digits) :
    (10 : Rat) ^ (d.pointPosition - 1) ≤ d.toRat ∧ d.toRat < 10 ^ d.pointPosition := by
  obtain ⟨low, high⟩ := toDigits_bounds positive
  have step : (0 : Rat) < 10 ^ d.exponent := by positivity
  rw [Decimal.pointPosition, Decimal.toRat]
  constructor
  · rw [show ((Nat.toDigits 10 d.digits).length : Int) + d.exponent - 1 =
      (Nat.toDigits 10 d.digits).length - 1 + d.exponent by omega, zpow_add₀ (by norm_num)]
    exact mul_le_mul_of_nonneg_right low step.le
  · rw [zpow_add₀ (by norm_num)]
    exact mul_lt_mul_of_pos_right high step

/-- A decimal is below a power of ten when its point stands no further. -/
theorem toRat_lt_pow_iff {d : Decimal} (positive : 0 < d.digits) (k : Int) :
    d.toRat < 10 ^ k ↔ d.pointPosition ≤ k := by
  obtain ⟨low, high⟩ := pointPosition_bounds positive
  have one_lt : (1 : Rat) < 10 := by norm_num
  constructor
  · intro less
    have := (zpow_lt_zpow_iff_right₀ one_lt).mp (lt_of_le_of_lt low less)
    omega
  · exact fun le => lt_of_lt_of_le high (zpow_le_zpow_right₀ one_lt.le le)

/-- Beyond the greatest exponent there is only infinity. -/
theorem ofRat_of_large {x : Rat} (large : (2 : Rat) ^ (1024 : Int) ≤ x) :
    Binary64.ofRat false x = .infinite false := by
  have pos : 0 < x := lt_of_lt_of_le (by positivity) large
  have abs_eq : x.abs = x := Rat.abs_of_nonneg pos.le
  obtain ⟨-, high⟩ := floorLog_spec isNatLog_log2 pos
  rw [Nat.cast_ofNat] at high
  have exponent := (zpow_lt_zpow_iff_right₀ (by norm_num)).mp (lt_of_le_of_lt large high)
  have quantum : 971 < Format.binary64.quantum x := by
    change 971 < max (-1074) (floorLog 2 Nat.log2 x + 1 - 53)
    omega
  have overflow : ¬ (Format.binary64.round x.abs).2 ≤ 971 := by
    rw [abs_eq, Format.round]
    split
    · omega
    · exact not_le.mpr quantum
  rw [Binary64.ofRat, dif_neg pos.ne', dif_neg overflow, decide_eq_false (not_lt.mpr pos.le)]

/-- Less than half of the least number is nothing. -/
theorem ofRat_of_small {x : Rat} (pos : 0 < x) (small : x < (2 : Rat) ^ (-1075 : Int)) :
    Binary64.ofRat false x = Binary64.zero false := by
  have abs_eq : x.abs = x := Rat.abs_of_nonneg pos.le
  have half : x / 2 ^ (-1074 : Int) < 1 / 2 := by
    have split : (2 : Rat) ^ (-1075 : Int) = 1 / 2 * 2 ^ (-1074 : Int) := by
      rw [show (-1075 : Int) = -1 + -1074 by omega, zpow_add₀ (by norm_num), zpow_neg_one,
        one_div]
    rw [div_lt_iff₀ (by positivity), ← split]
    exact small
  have scaled : 0 < x / 2 ^ (-1074 : Int) := div_pos pos (by positivity)
  generalize unit : (2 : Rat) ^ (-1074 : Int) = u at half scaled
  have nearest : nearestInt (x / 2 ^ (-1074 : Int)) = (0 : Nat) := by
    rw [unit]
    exact nearestInt_eq (by push_cast; linarith) (by push_cast; linarith) (.inl rfl)
  have rounded : Format.binary64.round x.abs = (0, -1074) := by
    rw [abs_eq]
    exact round_eq pos (le_refl _) (by rw [unit]; linarith) (.inl rfl) nearest
  have fits : (Format.binary64.round x.abs).2 ≤ 971 := by
    rw [rounded]
    decide
  rw [Binary64.ofRat, dif_neg pos.ne', dif_pos fits]
  simp only [rounded, decide_eq_false (not_lt.mpr pos.le)]
  rfl

theorem two_pow_le_ten_pow : (2 : Rat) ^ (1024 : Int) ≤ 10 ^ (310 : Int) ∧
    (10 : Rat) ^ (-331 : Int) ≤ 2 ^ (-1075 : Int) := by
  have large : 2 ^ 1024 ≤ 10 ^ 310 := by decide +kernel
  have small : 2 ^ 1075 ≤ 10 ^ 331 := by decide +kernel
  constructor
  · exact_mod_cast large
  · rw [zpow_neg, zpow_neg]
    exact inv_anti₀ (by positivity) (by exact_mod_cast small)

/-- A decimal literal is rounded once from what it denotes, whatever its size. -/
theorem nearestDecimal_eq_ofRat (n : Nat) (e : Int) :
    Literal.nearestDecimal n e = Binary64.ofRat false (n * 10 ^ e) := by
  by_cases empty : n = 0
  · subst empty
    simp [Literal.nearestDecimal, Binary64.ofRat]
  obtain ⟨low, high⟩ := @pointPosition_bounds ⟨n, e⟩ (Nat.pos_of_ne_zero empty)
  rw [Decimal.pointPosition] at low high
  change _ ≤ (n : Rat) * 10 ^ e at low
  change (n : Rat) * 10 ^ e < _ at high
  unfold Literal.nearestDecimal
  dsimp only
  rw [if_neg empty]
  split
  · next large =>
    have : (10 : Rat) ^ (310 : Int) ≤ 10 ^ ((Nat.toDigits 10 n).length + e - 1) :=
      zpow_le_zpow_right₀ (by norm_num) (by omega)
    exact (ofRat_of_large (two_pow_le_ten_pow.1.trans (this.trans low))).symm
  · split
    · next small =>
      have pos : 0 < (n : Rat) * 10 ^ e := lt_of_lt_of_le (by positivity) low
      have : (10 : Rat) ^ ((Nat.toDigits 10 n).length + e) ≤ 10 ^ (-331 : Int) :=
        zpow_le_zpow_right₀ (by norm_num) (by omega)
      exact (ofRat_of_small pos (lt_of_lt_of_le high (this.trans two_pow_le_ten_pow.2))).symm
    · rfl

/-- The value of a decimal literal is what it denotes, rounded once. -/
theorem decimal?_eq_rational? (text : List Char) :
    Literal.decimal? text = (Literal.rational? text).map (Binary64.ofRat false) := by
  rw [Literal.decimal?_eq_map, Literal.rational?, Option.map_map]
  congr 1
  funext parts
  exact nearestDecimal_eq_ofRat (Literal.natOfDigits parts.1) parts.2

/-! ### Digits around a point -/

open Literal

/-- A natural number's digits are the significant ones and zeros. -/
theorem toDigits_eq_significantDigits (d : Decimal) :
    ∃ j, Nat.toDigits 10 d.digits = d.significantDigits ++ List.replicate j '0' := by
  obtain ⟨back, zero, split⟩ : ∃ back, (∀ c ∈ back, c = '0') ∧
      Nat.toDigits 10 d.digits = d.significantDigits ++ back := by
    refine ⟨((Nat.toDigits 10 d.digits).reverse.takeWhile (· == '0')).reverse, ?_, ?_⟩
    · intro c mem
      simpa using List.mem_takeWhile_imp (List.mem_reverse.mp mem)
    · rw [Decimal.significantDigits, ← List.reverse_append, List.takeWhile_append_dropWhile,
        List.reverse_reverse]
  exact ⟨back.length, by rw [split, List.eq_replicate_of_mem zero, List.length_replicate]⟩

theorem allDigits_significantDigits (d : Decimal) : AllDigits d.significantDigits := by
  obtain ⟨j, split⟩ := toDigits_eq_significantDigits d
  intro c mem
  apply Nat.isDigit_of_mem_toDigits (b := 10) (n := d.digits) (by decide) (by decide)
  rw [split]
  exact List.mem_append_left _ mem

theorem significantDigits_ne_nil {d : Decimal} (positive : 0 < d.digits) :
    d.significantDigits ≠ [] := by
  obtain ⟨j, split⟩ := toDigits_eq_significantDigits d
  intro empty
  have value := @Nat.ofDigitChars_ten_toDigits d.digits
  rw [split, empty, List.nil_append, Nat.ofDigitChars_replicate_zero] at value
  omega

/-- The significant digits at the decimal's point spell the decimal. -/
theorem toRat_eq_significantDigits (d : Decimal) :
    d.toRat = natOfDigits d.significantDigits *
      10 ^ (d.pointPosition - d.significantDigits.length) := by
  obtain ⟨j, split⟩ := toDigits_eq_significantDigits d
  have value := @Nat.ofDigitChars_ten_toDigits d.digits
  rw [split, Nat.ofDigitChars_append, Nat.ofDigitChars_replicate_zero] at value
  have places : d.pointPosition - d.significantDigits.length = j + d.exponent := by
    rw [Decimal.pointPosition, split, List.length_append, List.length_replicate]
    push_cast
    omega
  rw [Decimal.toRat, places, zpow_add₀ (by norm_num), natOfDigits, ← value]
  push_cast
  rw [zpow_natCast]
  ring

theorem radixOf?_eq_none {c : Char} (other : c ∉ ['x', 'X', 'o', 'O', 'b', 'B']) :
    radixOf? c = none := by
  unfold radixOf?
  grind

/-- A text without the letters that select a radix begins with none. -/
theorem radix?_eq_none_of_letters {text : List Char} (other : ∀ c ∈ text, radixOf? c = none) :
    radix? text = none := by
  cases accepted : radix? text with
  | none => rfl
  | some value =>
    obtain ⟨letter, digits, base, values, rfl, -, letter_eq, -⟩ := exists_of_radix? accepted
    rw [other letter (by simp)] at letter_eq
    cases letter_eq

theorem radixOf?_of_plain {c : Char} (plain : c.isDigit = true ∨ c = '.') :
    radixOf? c = none := by
  refine radixOf?_eq_none fun letter => ?_
  rcases plain with digit | rfl
  · have none : ∀ c ∈ ['x', 'X', 'o', 'O', 'b', 'B'], c.isDigit = false := by simp
    rw [none c letter] at digit
    cases digit
  · exact absurd letter (by decide)

/-- A text of digits and points begins with no radix. -/
theorem radix?_eq_none {text : List Char} (plain : ∀ c ∈ text, c.isDigit = true ∨ c = '.') :
    radix? text = none :=
  radix?_eq_none_of_letters fun c mem => radixOf?_of_plain (plain c mem)

/-- A text whose second character selects no radix begins with none. -/
theorem radix?_of_second {a c : Char} (other : radixOf? c = none) (text : List Char) :
    radix? (a :: c :: text) = none := by
  unfold radix?
  split
  · next split =>
    cases split
    rw [other]
    rfl
  · rfl

theorem allDigits_zeros (places : Int) : AllDigits (zeros places) := by
  intro c mem
  rw [List.eq_of_mem_replicate mem]
  decide

theorem natOfDigits_append_zeros (digits : List Char) (places : Int) :
    natOfDigits (digits ++ zeros places) = 10 ^ places.toNat * natOfDigits digits := by
  rw [natOfDigits, zeros, Nat.ofDigitChars_append, Nat.ofDigitChars_replicate_zero, natOfDigits]

theorem natOfDigits_zeros_append (places : Int) (digits : List Char) :
    natOfDigits (zeros places ++ digits) = natOfDigits digits := by
  rw [natOfDigits, zeros, Nat.ofDigitChars_append, Nat.ofDigitChars_replicate_zero, Nat.mul_zero,
    natOfDigits]

theorem digits?_toDigits (n : Nat) : digits? (Nat.toDigits 10 n) = some n := by
  have nonempty : Nat.toDigits 10 n ≠ [] :=
    List.ne_nil_of_length_pos Nat.length_toDigits_pos
  have all : (Nat.toDigits 10 n).all Char.isDigit = true :=
    List.all_eq_true.mpr fun c mem => Nat.isDigit_of_mem_toDigits (by decide) (by decide) mem
  rw [digits?, if_pos ⟨nonempty, all⟩, natOfDigits, Nat.ofDigitChars_ten_toDigits]

/-- An exponent is read back from its text. -/
theorem exponent?_exponentText (e : Int) : exponent? (exponentText e) = some e := by
  unfold exponentText
  split
  · have value : -(e.natAbs : Int) = e := by omega
    simpa [exponent?, exponentDigits?, digits?_toDigits] using value
  · have value : (e.natAbs : Int) = e := by omega
    simpa [exponent?, exponentDigits?, digits?_toDigits] using value

theorem exponentText_cons (e : Int) : ∃ text, exponentText e = 'e' :: text := by
  unfold exponentText
  split <;> exact ⟨_, rfl⟩

/-- Digits laid out around a point select no radix. -/
theorem radix?_layout {digits : List Char} (all : AllDigits digits) (point : Int) :
    radix? (layout digits point) = none := by
  have digit : ∀ c ∈ digits, c.isDigit = true ∨ c = '.' := fun c mem => .inl (all c mem)
  have zero : ∀ places, ∀ c ∈ zeros places, c.isDigit = true ∨ c = '.' :=
    fun places c mem => .inl (allDigits_zeros places c mem)
  unfold layout
  split
  · exact radix?_eq_none (List.forall_mem_append.mpr ⟨digit, zero _⟩)
  · split
    · refine radix?_eq_none (List.forall_mem_append.mpr ⟨?_, List.forall_mem_cons.mpr ⟨.inr rfl, ?_⟩⟩)
      · exact fun c mem => digit c (List.mem_of_mem_take mem)
      · exact fun c mem => digit c (List.mem_of_mem_drop mem)
    · split
      · exact radix?_of_second (by decide) _
      · obtain ⟨text, exponential⟩ := exponentText_cons (point - 1)
        match digits with
        | [] => rw [exponential]; rfl
        | [first] => rw [exponential]; exact radix?_of_second (by decide) _
        | first :: second :: rest => exact radix?_of_second (by decide) _

/-- Digits laid out around a point denote what they spell. -/
theorem rational?_layout {digits : List Char} (all : AllDigits digits) (some_digit : digits ≠ [])
    (point : Int) : rational? (layout digits point) =
      some (natOfDigits digits * 10 ^ (point - digits.length) : Rat) := by
  unfold layout
  split
  · next behind =>
    obtain ⟨k, places⟩ : ∃ k : Nat, point - digits.length = k := ⟨_, (Int.toNat_of_nonneg
      (by omega)).symm⟩
    rw [rational?_whole (all.append (allDigits_zeros _)) (by simp [some_digit]),
      natOfDigits_append_zeros, places, Int.toNat_natCast, zpow_natCast, mul_comm]
    push_cast
    rfl
  · split
    · next inside =>
      have cut : digits.take point.toNat ++ digits.drop point.toNat = digits :=
        List.take_append_drop ..
      have places : -((digits.drop point.toNat).length : Int) = point - digits.length := by
        rw [List.length_drop]
        omega
      rw [rational?_pointed (fun c mem => all c (List.mem_of_mem_take mem))
        (fun c mem => all c (List.mem_of_mem_drop mem)) (by rwa [cut]), cut, places]
    · split
      · have zero : AllDigits ['0'] := allDigits_zeros 1
        have places : -((zeros (-point) ++ digits).length : Int) = point - digits.length := by
          rw [List.length_append, zeros, List.length_replicate]
          push_cast
          omega
        have value : natOfDigits (['0'] ++ (zeros (-point) ++ digits)) = natOfDigits digits := by
          rw [show ['0'] = zeros 1 from rfl, natOfDigits_zeros_append, natOfDigits_zeros_append]
        have denoted := rational?_pointed zero ((allDigits_zeros (-point)).append all) (by simp)
        rw [value, places] at denoted
        exact denoted
      · have exponent := exponent?_exponentText (point - 1)
        cases digits with
        | nil => exact absurd rfl some_digit
        | cons first later =>
          obtain ⟨head, behind⟩ := List.forall_mem_cons.mp all
          have front : AllDigits [first] := List.forall_mem_singleton.mpr head
          cases later with
          | nil =>
            have denoted := rational?_eq front behind (.inr ⟨rfl, rfl⟩) (by simp) exponent
            simpa using denoted
          | cons second rest =>
            have denoted := rational?_eq front behind (.inl rfl) (by simp) exponent
            have places : point - 1 - ((second :: rest).length : Int) =
                point - ((first :: second :: rest).length : Int) := by
              rw [List.length_cons (a := first)]
              push_cast
              omega
            rw [places] at denoted
            exact denoted

/-- Digits laid out around a point are a literal for what they spell. -/
theorem decimal?_layout {digits : List Char} (all : AllDigits digits) (some_digit : digits ≠ [])
    (point : Int) : decimal? (layout digits point) =
      some (Binary64.ofRat false (natOfDigits digits * 10 ^ (point - digits.length))) := by
  rw [decimal?_eq_rational?, rational?_layout all some_digit]
  rfl

theorem number?_layout {digits : List Char} (all : AllDigits digits) (some_digit : digits ≠ [])
    (point : Int) : number? (layout digits point) =
      some (Binary64.ofRat false (natOfDigits digits * 10 ^ (point - digits.length))) := by
  rw [number?_of_radix?_eq_none (radix?_layout all point), decimal?_layout all some_digit]

/-- The characters of digits laid out around a point near them. -/
theorem layout_chars {digits : List Char} {point : Int} (all : AllDigits digits)
    (low : -6 < point) (high : point ≤ 21) :
    ∀ c ∈ layout digits point, isWordChar c = true := by
  have zero : ∀ places, ∀ c ∈ zeros places, isWordChar c = true :=
    fun places c mem => isWordChar_of_isDigit (allDigits_zeros places c mem)
  have digit : ∀ c ∈ digits, isWordChar c = true := fun c mem => isWordChar_of_isDigit (all c mem)
  intro c mem
  unfold layout at mem
  split at mem
  · rcases List.mem_append.mp mem with mem | mem
    · exact digit c mem
    · exact zero _ c mem
  · split at mem
    · rcases List.mem_append.mp mem with mem | mem
      · exact digit c (List.mem_of_mem_take mem)
      · rcases List.mem_cons.mp mem with rfl | mem
        · rfl
        · exact digit c (List.mem_of_mem_drop mem)
    · rw [if_pos (by omega)] at mem
      rcases List.mem_cons.mp mem with rfl | mem
      · rfl
      rcases List.mem_cons.mp mem with rfl | mem
      · rfl
      rcases List.mem_append.mp mem with mem | mem
      · exact zero _ c mem
      · exact digit c mem

/-! ### Numbers written without an exponent -/

/-- Zero, and the numbers from the one nearest to `1e-6` to below `1e21`. -/
def Binary64.isPlain (x : Binary64) : Bool :=
  !x.isNegative &&
    (x.isZero || (nearestDecimal 1 (-6)).le x && x.lt (nearestDecimal 1 21))

theorem canonical_micro : Canonical 4722366482869645 (-72) :=
  ⟨by decide, by decide, by decide, .inl (by decide)⟩

theorem canonical_sextillion : Canonical 7629394531250000 17 :=
  ⟨by decide, by decide, by decide, .inl (by decide)⟩

theorem nearestDecimal_micro :
    nearestDecimal 1 (-6) = .finite false 4722366482869645 (-72) canonical_micro := by
  have inside : (ofParts 4722366482869645 (-72)).contains ((1 : Nat) * 10 ^ (-6 : Int)) = true := by
    apply contains_of_near
    · rw [gap_of_ne (by decide)]
      norm_num
    · norm_num
  rw [nearestDecimal_eq_ofRat, ofRat_of_contains canonical_micro (by decide) inside]

theorem nearestDecimal_sextillion :
    nearestDecimal 1 21 = .finite false 7629394531250000 17 canonical_sextillion := by
  have inside : (ofParts 7629394531250000 17).contains ((1 : Nat) * 10 ^ (21 : Int)) = true := by
    apply contains_of_near
    · rw [gap_of_ne (by decide)]
      norm_num
    · norm_num
  rw [nearestDecimal_eq_ofRat, ofRat_of_contains canonical_sextillion (by decide) inside]

/-- The shortest decimal of `1e21`. -/
theorem shortest_sextillion : shortest 7629394531250000 17 = ⟨1, 21⟩ := by
  have leading : floorLog 10 log10 (ofParts 7629394531250000 17).value = 21 := by
    refine floorLog_eq isNatLog_log10 ?_ ?_ <;> norm_num [value_ofParts]
  have first : (ofParts 7629394531250000 17).onGrid? (21 - (0 : Nat)) = some ⟨1, 21⟩ := by
    apply onGrid?_of_below
    · refine floor_eq ?_ ?_ <;> norm_num [value_ofParts]
    · apply contains_of_near
      · rw [gap_of_ne (by decide)]
        norm_num
      · norm_num
    · rw [Bool.eq_false_iff]
      intro inside
      obtain ⟨-, high, -⟩ := contains_ofParts_iff.mp inside
      norm_num at high
  rw [shortest, leading, List.range_succ_eq_map, List.findSome?_cons, first]
  rfl

/-- The shortest decimal of the number nearest to `1e-6`. -/
theorem shortest_micro : shortest 4722366482869645 (-72) = ⟨10, -7⟩ := by
  have leading : floorLog 10 log10 (ofParts 4722366482869645 (-72)).value = -7 := by
    refine floorLog_eq isNatLog_log10 ?_ ?_ <;> norm_num [value_ofParts]
  have first : (ofParts 4722366482869645 (-72)).onGrid? (-7 - (0 : Nat)) = some ⟨10, -7⟩ := by
    apply onGrid?_of_above (n := 9)
    · refine floor_eq ?_ ?_ <;> norm_num [value_ofParts]
    · rw [Bool.eq_false_iff]
      intro inside
      obtain ⟨low, -, -⟩ := contains_ofParts_iff.mp inside
      rw [gap_of_ne (by decide)] at low
      norm_num at low
    · apply contains_of_near
      · rw [gap_of_ne (by decide)]
        norm_num
      · norm_num
  rw [shortest, leading, List.range_succ_eq_map, List.findSome?_cons, first]
  rfl

theorem digits_shortest_pos {m : Nat} {q : Int} (canonical : Canonical m q) (positive : 0 < m) :
    0 < (shortest m q).digits := by
  by_contra none
  have empty : (shortest m q).digits = 0 := by omega
  have pos := pos_of_contains positive (contains_shortest canonical positive)
  rw [Decimal.toRat, empty, Nat.cast_zero, zero_mul] at pos
  exact lt_irrefl 0 pos

/-- The point of the shortest decimal tells on which side of the sizes at which the layout
changes a number is. -/
theorem point_iff {m : Nat} {q : Int} (canonical : Canonical m q) (positive : 0 < m) :
    (-6 < (shortest m q).pointPosition ↔
      (4722366482869645 : Rat) * 2 ^ (-72 : Int) ≤ m * 2 ^ q) ∧
    ((shortest m q).pointPosition ≤ 21 ↔ (m : Rat) * 2 ^ q < 10 ^ 21) := by
  have digits := digits_shortest_pos canonical positive
  constructor
  · have micro := toRat_shortest_lt_iff canonical positive canonical_micro (by decide)
    rw [shortest_micro, show Decimal.toRat ⟨10, -7⟩ = 10 ^ (-6 : Int) by norm_num [Decimal.toRat],
      toRat_lt_pow_iff digits, Nat.cast_ofNat] at micro
    exact not_le.symm.trans (micro.not.trans not_lt)
  · have sextillion := toRat_shortest_lt_iff canonical positive canonical_sextillion (by decide)
    rw [shortest_sextillion,
      show Decimal.toRat ⟨1, 21⟩ = 10 ^ (21 : Int) by norm_num [Decimal.toRat],
      toRat_lt_pow_iff digits] at sextillion
    rw [sextillion]
    norm_num

theorem exists_of_isPlain {x : Binary64} (plain : x.isPlain = true) :
    ∃ m q canonical, x = .finite false m q canonical ∧ (m = 0 ∨
      (4722366482869645 : Rat) * 2 ^ (-72 : Int) ≤ m * 2 ^ q ∧ (m : Rat) * 2 ^ q < 10 ^ 21) := by
  rw [isPlain, nearestDecimal_micro, nearestDecimal_sextillion] at plain
  cases x with
  | nan => simp [isZero, le, lt, sameNumber] at plain
  | infinite negative => cases negative <;> simp [isNegative, isZero, lt] at plain
  | finite negative m q canonical =>
    simp only [isNegative, isZero, le, lt, sameNumber, signedRat, Bool.and_eq_true, Bool.or_eq_true,
      Bool.not_eq_true', beq_iff_eq] at plain
    obtain ⟨rfl, range⟩ := plain
    refine ⟨m, q, canonical, rfl, range.imp_right ?_⟩
    rintro ⟨low, high⟩
    simp only [Bool.false_eq_true, if_false, decide_eq_true_eq] at low high
    have sextillion : ((7629394531250000 : Nat) : Rat) * 2 ^ (17 : Int) = 10 ^ 21 := by norm_num
    rw [sextillion] at high
    exact ⟨low.elim le_of_lt le_of_eq, high⟩

theorem chars_zero (negative : Bool) {q : Int} (canonical : Canonical 0 q) :
    (Binary64.finite negative 0 q canonical).chars = ['0'] :=
  rfl

theorem chars_finite (negative : Bool) {m : Nat} {q : Int} (canonical : Canonical m q)
    (positive : 0 < m) : (Binary64.finite negative m q canonical).chars =
      if negative then '-' :: layout (shortest m q).significantDigits (shortest m q).pointPosition
      else layout (shortest m q).significantDigits (shortest m q).pointPosition :=
  if_neg positive.ne'

theorem number?_zero (q : Int) (canonical : Canonical 0 q) :
    number? ['0'] = some (.finite false 0 q canonical) := by
  obtain rfl : q = -1074 := canonical.full_or_least.resolve_left (by decide)
  have digit : AllDigits ['0'] := allDigits_zeros 1
  have none : natOfDigits ['0'] = 0 := by decide
  change number? (layout ['0'] 1) = _
  rw [number?_layout digit (by simp), none, Nat.cast_zero, zero_mul, Binary64.ofRat,
    dif_pos rfl]
  rfl

/-- A number written without an exponent reads back, and its text is one word. -/
theorem number?_chars_of_isPlain {x : Binary64} (plain : x.isPlain = true) :
    number? x.chars = some x ∧ ∀ c ∈ x.chars, isWordChar c = true := by
  obtain ⟨m, q, canonical, rfl, range⟩ := exists_of_isPlain plain
  by_cases zero : m = 0
  · subst zero
    rw [chars_zero]
    exact ⟨number?_zero q canonical, by simp [isWordChar, isNameChar]⟩
  obtain ⟨low, high⟩ := range.resolve_left zero
  have positive := Nat.pos_of_ne_zero zero
  have digits := digits_shortest_pos canonical positive
  obtain ⟨front_iff, behind_iff⟩ := point_iff canonical positive
  have all := allDigits_significantDigits (shortest m q)
  rw [chars_finite false canonical positive, if_neg Bool.false_ne_true]
  refine ⟨?_, layout_chars all (front_iff.mpr low) (behind_iff.mpr high)⟩
  rw [number?_layout all (significantDigits_ne_nil digits),
    ← toRat_eq_significantDigits,
    ofRat_of_contains canonical positive (contains_shortest canonical positive)]

end SelectionFormula
