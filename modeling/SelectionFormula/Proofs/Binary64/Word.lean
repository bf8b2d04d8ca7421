import Mathlib.Data.Int.Bitwise
import Mathlib.Data.Int.ModEq
import SelectionFormula.Binary64.Word
import SelectionFormula.Proofs.Binary64.Exact

/-!
Numbers as words, in exact integers.

The reduction modulo `2 ^ 32` is done in binary64 arithmetic and rounds nothing: the integer part of
a finite number is representable, its remainder is an integer below `2 ^ 32`, and so is that with
`2 ^ 32` added when it is negative. Clamping changes nothing then (`clamped_wrapped`), so the word of
a number is its integer part as a word (`toWord_eq`), and two numbers have one word just when their
integer parts are congruent (`toWord_eq_iff`). Read back, a word is exact, and the representative of
its class in the range of the reading (`represents_ofSigned`, `toNat_ofInt_eq`).
-/

namespace SelectionFormula

namespace Binary64

variable {x y : Binary64} {i j r : Int}

/-! ### From numbers to words -/

/-- The integer part of a finite number, toward zero, and zero for every other number. -/
def integerPart (x : Binary64) : Int :=
  (x.toRat?.map truncate).getD 0

/-- The integer part is less than one away. -/
theorem truncate_near (x : Rat) : x - 1 < truncate x ∧ truncate x < x + 1 := by
  unfold truncate
  split
  · have low := Rat.floor_le x
    have high := Rat.lt_floor_add_one x
    push_cast at high
    exact ⟨by linarith, by linarith⟩
  · have low := Rat.le_ceil (x := x)
    have high := Rat.ceil_lt (x := x)
    exact ⟨by linarith, by linarith⟩

theorem toRat?_wordCount : wordCount.toRat? = some ((2 ^ 32 : Int) : Rat) := by
  have exactly := toRat?_ofNat (show 4294967296 ≤ 2 ^ 53 by decide)
  rw [wordCount, exactly]
  norm_num

/-- The remainder of an integer is an integer of the same class. -/
theorem exists_rem (at_i : x.toRat? = some (i : Rat)) : ∃ j : Int,
    (x.rem wordCount).toRat? = some (j : Rat) ∧ -2 ^ 32 < j ∧ j < 2 ^ 32 ∧
      j % 2 ^ 32 = i % 2 ^ 32 := by
  obtain ⟨low, high⟩ := truncate_near ((i : Rat) / (2 ^ 32 : Int))
  generalize quotient : truncate ((i : Rat) / (2 ^ 32 : Int)) = k at low high
  have count : (0 : Rat) < (2 ^ 32 : Int) := by norm_num
  have above : (2 ^ 32 : Int) * k < i + 2 ^ 32 := by
    have := mul_lt_mul_of_pos_right high count
    rw [add_mul, div_mul_cancel₀ _ count.ne', one_mul, mul_comm] at this
    exact_mod_cast this
  have below : i - 2 ^ 32 < (2 ^ 32 : Int) * k := by
    have := mul_lt_mul_of_pos_right low count
    rw [sub_mul, div_mul_cancel₀ _ count.ne', one_mul, mul_comm (k : Rat)] at this
    exact_mod_cast this
  have rest : (i : Rat) - (2 ^ 32 : Int) * truncate ((i : Rat) / (2 ^ 32 : Int)) =
      ((i - 2 ^ 32 * k : Int) : Rat) := by
    rw [quotient]
    push_cast
    rfl
  refine ⟨i - 2 ^ 32 * k, ?_, by omega, by omega, by omega⟩
  rw [← rest]
  refine toRat?_rem at_i toRat?_wordCount count.ne' ?_
  rw [rest]
  exact representable_intCast (by omega)

/-- Integers of one class modulo `2 ^ 32` are one word. -/
theorem ofInt_congr (same : i % 2 ^ 32 = j % 2 ^ 32) : BitVec.ofInt 32 i = BitVec.ofInt 32 j := by
  apply BitVec.eq_of_toNat_eq
  rw [BitVec.toNat_ofInt, BitVec.toNat_ofInt]
  omega

/-- An integer that is a word is clamped to itself. -/
theorem clamped_eq (at_i : x.toRat? = some (i : Rat)) (low : 0 ≤ i) (high : i < 2 ^ 32) :
    x.clamped = BitVec.ofInt 32 i := by
  obtain ⟨n, rfl⟩ := Int.eq_ofNat_of_zero_le low
  have finite : x.clamped = BitVec.ofNat 32 (min x.toNat 4294967295) := by
    cases x with
    | infinite negative => cases at_i
    | _ => rfl
  rw [finite, toNat_eq at_i, Int.toNat_natCast, Nat.min_eq_left (by omega), BitVec.ofInt_natCast]

/-- A remainder below zero is made one above it, and is a word then. -/
theorem clamped_wrapped (at_i : x.toRat? = some (i : Rat)) (low : -2 ^ 32 < i) (high : i < 2 ^ 32) :
    (if x.lt (zero false) then x.add wordCount else x).clamped = BitVec.ofInt 32 i := by
  rw [lt_eq at_i (toRat?_zero false)]
  by_cases negative : i < 0
  · have below : (i : Rat) < 0 := by exact_mod_cast negative
    have sum : (x.add wordCount).toRat? = some ((i + 2 ^ 32 : Int) : Rat) := by
      rw [Int.cast_add]
      refine toRat?_add at_i toRat?_wordCount ?_
      rw [← Int.cast_add]
      exact representable_intCast (by omega)
    rw [if_pos (decide_eq_true below), clamped_eq sum (by omega) (by omega)]
    exact ofInt_congr (Int.add_emod_right i (2 ^ 32))
  · have above : ¬ (i : Rat) < 0 := by exact_mod_cast negative
    rw [if_neg (by simpa using above), clamped_eq at_i (by omega) high]

/-- The word of a number is its integer part as a word. -/
theorem toWord_eq (x : Binary64) : x.toWord = BitVec.ofInt 32 x.integerPart := by
  cases x with
  | nan => rfl
  | infinite negative => rfl
  | finite negative m q canonical =>
    obtain ⟨i, rest, low, high, same⟩ := exists_rem (toRat?_trunc negative canonical)
    have part : (finite negative m q canonical).integerPart = truncate (signedRat negative m q) :=
      rfl
    simp only [toWord, isNaN, isInfinite, Bool.or_self, Bool.false_eq_true, if_false]
    rw [clamped_wrapped rest low high, part]
    exact ofInt_congr same

/-- Two numbers have one word just when their integer parts are of one class. -/
theorem toWord_eq_iff : x.toWord = y.toWord ↔ x.integerPart ≡ y.integerPart [ZMOD 2 ^ 32] := by
  rw [toWord_eq, toWord_eq, ← BitVec.toNat_inj, BitVec.toNat_ofInt, BitVec.toNat_ofInt, Int.ModEq]
  omega

/-! ### From words to numbers -/

/-- A number is an integer of a range. -/
structure IsIntegerIn (low high : Int) (x : Binary64) (i : Int) : Prop where
  low_le : low ≤ i
  lt_high : i < high
  eq_ofInt : x = ofInt i
  toRat?_eq : x.toRat? = some (i : Rat)

/-- A number is that integer of an integer's class modulo `2 ^ 32` which 32 bits hold with a
sign. -/
def Represents (x : Binary64) (i : Int) : Prop :=
  ∃ j, IsIntegerIn (-2 ^ 31) (2 ^ 31) x j ∧ j ≡ i [ZMOD 2 ^ 32]

theorem isIntegerIn_ofInt {low high : Int} (low_le : low ≤ i) (lt_high : i < high)
    (few : i.natAbs ≤ 2 ^ 53) : IsIntegerIn low high (ofInt i) i :=
  ⟨low_le, lt_high, rfl, toRat?_ofInt few⟩

/-- A small integer is its own integer part. -/
theorem integerPart_ofInt (few : i.natAbs ≤ 2 ^ 53) : (ofInt i).integerPart = i := by
  rw [integerPart, toRat?_ofInt few]
  exact truncate_intCast i

theorem isIntegerIn_ofSigned (w : Word) : IsIntegerIn (-2 ^ 31) (2 ^ 31) (ofSigned w) w.toInt := by
  have low : -2 ^ 31 ≤ w.toInt := BitVec.le_toInt w
  have high : w.toInt < 2 ^ 31 := BitVec.toInt_lt
  exact isIntegerIn_ofInt low high (by omega)

theorem ofNat_eq_ofInt (n : Nat) : ofNat n = ofInt n := by
  rw [ofNat, ofInt, Int.cast_natCast]

theorem isIntegerIn_ofUnsigned (w : Word) : IsIntegerIn 0 (2 ^ 32) (ofUnsigned w) w.toNat := by
  have high : w.toNat < 2 ^ 32 := w.isLt
  rw [ofUnsigned, ofNat_eq_ofInt]
  exact isIntegerIn_ofInt (by omega) (by omega) (by omega)

theorem toInt_ofInt_modEq (i : Int) : (BitVec.ofInt 32 i).toInt ≡ i [ZMOD 2 ^ 32] := by
  rw [BitVec.toInt_ofInt]
  exact Int.bmod_emod

/-- A word read with a sign is the representative of its class around zero. -/
theorem represents_ofSigned (i : Int) : Represents (ofSigned (BitVec.ofInt 32 i)) i :=
  ⟨_, isIntegerIn_ofSigned _, toInt_ofInt_modEq i⟩

/-- A word read without a sign is the remainder of its class. -/
theorem toNat_ofInt_eq (i : Int) : ((BitVec.ofInt 32 i).toNat : Int) = i % 2 ^ 32 := by
  rw [BitVec.toNat_ofInt]
  omega

end Binary64

end SelectionFormula
