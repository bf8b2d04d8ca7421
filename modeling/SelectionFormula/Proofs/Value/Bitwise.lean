import SelectionFormula.Proofs.Binary64.Word
import SelectionFormula.Value.Call

/-!
The operations on words are exact.

The word of an integer has its first bits, so the bitwise operations on words are those on the
integers themselves, taken in two's complement without an end (`ofInt_land` and the like), and sums,
products and shifts to the left go by classes modulo `2 ^ 32` as they are. With what a number's word
is (`toWord_eq`) that gives each operation on numbers in exact integers (`ExactWords`). All of them
take two numbers of one word for the same (`value_congr`), so their results depend on the classes of
the integer parts alone (`words_exact`).
-/

namespace SelectionFormula

open Binary64

/-! ### Words of integers -/

section Words

variable {w : Nat}

/-- The bits of an integer's word are the first ones of the integer. -/
theorem getLsbD_ofInt {place : Nat} (inside : place < w) (a : Int) :
    (BitVec.ofInt w a).getLsbD place = a.testBit place := by
  cases a with
  | ofNat n =>
    rw [Int.ofNat_eq_natCast, BitVec.ofInt_natCast, BitVec.getLsbD_ofNat]
    simp [inside, Int.testBit]
  | negSucc n =>
    rw [BitVec.ofInt_negSucc_eq_not_ofNat, BitVec.getLsbD_not, BitVec.getLsbD_ofNat]
    simp [inside, Int.testBit]

/-- A word with the first bits of an integer is the integer's word. -/
theorem eq_ofInt {u : BitVec w} {a : Int}
    (bits : ∀ place < w, u.getLsbD place = a.testBit place) : u = BitVec.ofInt w a :=
  BitVec.eq_of_getLsbD_eq fun place inside => by rw [bits place inside, getLsbD_ofInt inside]

theorem ofInt_land (a b : Int) :
    BitVec.ofInt w a &&& BitVec.ofInt w b = BitVec.ofInt w (a.land b) := by
  refine eq_ofInt fun place inside => ?_
  rw [BitVec.getLsbD_and, getLsbD_ofInt inside, getLsbD_ofInt inside, Int.testBit_land]

theorem ofInt_lor (a b : Int) :
    BitVec.ofInt w a ||| BitVec.ofInt w b = BitVec.ofInt w (a.lor b) := by
  refine eq_ofInt fun place inside => ?_
  rw [BitVec.getLsbD_or, getLsbD_ofInt inside, getLsbD_ofInt inside, Int.testBit_lor]

theorem ofInt_xor (a b : Int) :
    BitVec.ofInt w a ^^^ BitVec.ofInt w b = BitVec.ofInt w (a.xor b) := by
  refine eq_ofInt fun place inside => ?_
  rw [BitVec.getLsbD_xor, getLsbD_ofInt inside, getLsbD_ofInt inside, Int.testBit_lxor]

theorem ofInt_lnot (a : Int) : ~~~BitVec.ofInt w a = BitVec.ofInt w a.lnot := by
  refine eq_ofInt fun place inside => ?_
  rw [BitVec.getLsbD_not, getLsbD_ofInt inside, Int.testBit_lnot, decide_eq_true inside,
    Bool.true_and]

theorem ofInt_shiftLeft (a : Int) (k : Nat) :
    BitVec.ofInt w a <<< k = BitVec.ofInt w (a * 2 ^ k) := by
  have power : BitVec.twoPow w k = BitVec.ofInt w (2 ^ k) := by
    have natural : (2 ^ k : Int) = (2 ^ k : Nat) := by push_cast; rfl
    rw [natural, BitVec.ofInt_natCast]
    apply BitVec.eq_of_toNat_eq
    rw [BitVec.toNat_twoPow, BitVec.toNat_ofNat]
  rw [BitVec.shiftLeft_eq_mul_twoPow, power, BitVec.ofInt_mul]

/-- A shift count is a count's remainder by the bits of a word. -/
theorem shiftCount_ofInt (b : Int) :
    Word.shiftCount (BitVec.ofInt 32 b) = (b % 32).toNat := by
  rw [Word.shiftCount, BitVec.toNat_ofInt]
  omega

/-- How many leading bits of a word are zero: it has the others, and the first of them is set. -/
theorem clz_spec (u : Word) : u.clz.toNat ≤ 32 ∧ u.toNat < 2 ^ (32 - u.clz.toNat) ∧
    (u.clz.toNat < 32 → 2 ^ (31 - u.clz.toNat) ≤ u.toNat) := by
  have most : u.clz.toNat ≤ 32 := BitVec.clz_le
  refine ⟨most, BitVec.toNat_lt_two_pow_sub_clz, fun less => ?_⟩
  refine BitVec.two_pow_sub_clz_le_toNat_of_ne_zero (show 0 < 32 by decide) ?_
  rintro rfl
  revert less
  decide

end Words

/-! ### The operations -/

/-- What becomes of two numbers in the operations on words, in exact integers: `a` and `b` are
their integer parts, zero for what is not finite, and `k` is a shift count. -/
structure ExactWords (x y : Binary64) (a b : Int) (k : Nat) : Prop where
  unsigned : (x.toWord.toNat : Int) = a % 2 ^ 32
  signed : -2 ^ 31 ≤ x.toWord.toInt ∧ x.toWord.toInt < 2 ^ 31 ∧ x.toWord.toInt ≡ a [ZMOD 2 ^ 32]
  complement : ∃ z, UnaryOperator.complement.value? x = some z ∧ Represents z a.lnot
  bitAnd : Represents (BinaryOperator.bitAnd.value x y) (a.land b)
  bitOr : Represents (BinaryOperator.bitOr.value x y) (a.lor b)
  bitXor : Represents (BinaryOperator.bitXor.value x y) (a.xor b)
  shiftLeft : Represents (BinaryOperator.shiftLeft.value x y) (a * 2 ^ k)
  shiftRight : IsIntegerIn (-2 ^ 31) (2 ^ 31) (BinaryOperator.shiftRight.value x y)
    (x.toWord.toInt / 2 ^ k)
  shiftRightUnsigned : IsIntegerIn 0 (2 ^ 32) (BinaryOperator.shiftRightUnsigned.value x y)
    (a % 2 ^ 32 / 2 ^ k)
  imul : ∀ rest, ∃ z, MathFunction.imul.apply (x :: y :: rest) = pure z ∧ Represents z (a * b)
  clz32 : ∀ rest, ∃ z, ∃ count : Nat, MathFunction.clz32.apply (x :: rest) = pure z ∧
    IsIntegerIn 0 33 z count ∧ a % 2 ^ 32 < 2 ^ (32 - count) ∧
    (count < 32 → 2 ^ (31 - count) ≤ a % 2 ^ 32)

/-- The operators on words. -/
def wordOperators : List BinaryOperator :=
  [.bitAnd, .bitOr, .bitXor, .shiftLeft, .shiftRight, .shiftRightUnsigned]

section Operations

variable {x y x' y' : Binary64}

theorem exactWords (x y : Binary64) :
    ExactWords x y x.integerPart y.integerPart (y.integerPart % 32).toNat where
  unsigned := by rw [toWord_eq, toNat_ofInt_eq]
  signed := by
    rw [toWord_eq]
    exact ⟨BitVec.le_toInt _, BitVec.toInt_lt, toInt_ofInt_modEq _⟩
  complement := by
    refine ⟨_, rfl, ?_⟩
    rw [toWord_eq, ofInt_lnot]
    exact represents_ofSigned _
  bitAnd := by
    rw [BinaryOperator.value, toWord_eq, toWord_eq, ofInt_land]
    exact represents_ofSigned _
  bitOr := by
    rw [BinaryOperator.value, toWord_eq, toWord_eq, ofInt_lor]
    exact represents_ofSigned _
  bitXor := by
    rw [BinaryOperator.value, toWord_eq, toWord_eq, ofInt_xor]
    exact represents_ofSigned _
  shiftLeft := by
    rw [BinaryOperator.value, toWord_eq, toWord_eq, shiftCount_ofInt, ofInt_shiftLeft]
    exact represents_ofSigned _
  shiftRight := by
    rw [BinaryOperator.value, toWord_eq y, shiftCount_ofInt]
    have shifted := isIntegerIn_ofSigned (x.toWord.sshiftRight (y.integerPart % 32).toNat)
    rw [BitVec.toInt_sshiftRight, Int.shiftRight_eq_div_pow] at shifted
    exact_mod_cast shifted
  shiftRightUnsigned := by
    rw [BinaryOperator.value, toWord_eq y, shiftCount_ofInt, ← toNat_ofInt_eq, ← toWord_eq]
    have shifted := isIntegerIn_ofUnsigned (x.toWord >>> (y.integerPart % 32).toNat)
    rw [BitVec.toNat_ushiftRight, Nat.shiftRight_eq_div_pow] at shifted
    exact_mod_cast shifted
  imul := by
    refine fun rest => ⟨_, rfl, ?_⟩
    change Represents (ofSigned (x.toWord * y.toWord)) _
    rw [toWord_eq, toWord_eq, ← BitVec.ofInt_mul]
    exact represents_ofSigned _
  clz32 := by
    intro rest
    obtain ⟨most, below, above⟩ := clz_spec x.toWord
    refine ⟨_, x.toWord.clz.toNat, rfl, ?_, ?_, ?_⟩
    · change IsIntegerIn 0 33 (ofNat x.toWord.clz.toNat) _
      rw [ofNat_eq_ofInt]
      exact isIntegerIn_ofInt (by omega) (by omega) (by omega)
    · rw [← toNat_ofInt_eq, ← toWord_eq]
      exact_mod_cast below
    · rw [← toNat_ofInt_eq, ← toWord_eq]
      exact_mod_cast above

/-- Operations on words take numbers of one word for the same. -/
theorem value_congr {operator : BinaryOperator} (mem : operator ∈ wordOperators)
    (left : x.toWord = x'.toWord) (right : y.toWord = y'.toWord) :
    operator.value x y = operator.value x' y' := by
  simp only [wordOperators, List.mem_cons, List.not_mem_nil, or_false] at mem
  rcases mem with rfl | rfl | rfl | rfl | rfl | rfl <;>
    rw [BinaryOperator.value, BinaryOperator.value, left, right]

/-- The operations on words are exact in the integers modulo `2 ^ 32`, and depend on the classes of
the integer parts alone. -/
theorem words_exact (x y : Binary64) :
    ExactWords x y x.integerPart y.integerPart (y.integerPart % 32).toNat ∧
    ∀ x' y' : Binary64, x.integerPart ≡ x'.integerPart [ZMOD 2 ^ 32] →
      y.integerPart ≡ y'.integerPart [ZMOD 2 ^ 32] →
      (∀ operator ∈ wordOperators, operator.value x y = operator.value x' y') ∧
      UnaryOperator.complement.value? x = UnaryOperator.complement.value? x' ∧
      (∀ rest, MathFunction.imul.apply (x :: y :: rest) =
        MathFunction.imul.apply (x' :: y' :: rest)) ∧
      ∀ rest, MathFunction.clz32.apply (x :: rest) = MathFunction.clz32.apply (x' :: rest) := by
  refine ⟨exactWords x y, fun x' y' left right => ?_⟩
  have left := toWord_eq_iff.mpr left
  have right := toWord_eq_iff.mpr right
  refine ⟨fun operator mem => value_congr mem left right, ?_, fun rest => ?_, fun rest => ?_⟩
  · rw [UnaryOperator.value?, UnaryOperator.value?, left]
  · change pure (ofSigned (x.toWord * y.toWord)) = pure (ofSigned (x'.toWord * y'.toWord))
    rw [left, right]
  · change pure (ofNat x.toWord.clz.toNat) = pure (ofNat x'.toWord.clz.toNat)
    rw [left]

theorem words_exact_minusOne :
    (ofInt (-1)).integerPart ≡ (ofInt 4294967295).integerPart [ZMOD 2 ^ 32] ∧
      BinaryOperator.shiftRight.value (ofInt (-1)) (ofInt 33) =
        BinaryOperator.shiftRight.value (ofInt 4294967295) (ofInt 4294967329) := by
  have left : (ofInt (-1)).integerPart ≡ (ofInt 4294967295).integerPart [ZMOD 2 ^ 32] := by
    rw [integerPart_ofInt (by decide), integerPart_ofInt (by decide)]
    decide
  have right : (ofInt 33).integerPart ≡ (ofInt 4294967329).integerPart [ZMOD 2 ^ 32] := by
    rw [integerPart_ofInt (by decide), integerPart_ofInt (by decide)]
    decide
  exact ⟨left, ((words_exact _ _).2 _ _ left right).1 _ (by decide)⟩

end Operations

end SelectionFormula
