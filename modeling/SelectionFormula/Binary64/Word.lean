import SelectionFormula.Binary64.Arithmetic

/-!
Numbers as 32-bit words: the integer part modulo `2 ^ 32`.

`toWord` reduces in binary64 arithmetic, where every step is exact, and the
result is a word without having to be clamped; numbers without an integer part
give the word zero. A word is read back either signed (`ofSigned`) or unsigned
(`ofUnsigned`).
-/

namespace SelectionFormula

abbrev Word := BitVec 32

namespace Binary64

/-- `2 ^ 32`. -/
def wordCount : Binary64 := ofNat 4294967296

/-- The word nearest to the integer part: a number that is not above zero, or not a
number, gives the least word, and one above all words the greatest. -/
def clamped : Binary64 → Word
  | .infinite false => BitVec.allOnes 32
  | x => BitVec.ofNat 32 (min x.toNat 4294967295)

/-- The integer part toward zero, modulo `2 ^ 32`. -/
def toWord (x : Binary64) : Word :=
  if x.isNaN || x.isInfinite then 0
  else
    let rest := x.trunc.rem wordCount
    let wrapped := if rest.lt (zero false) then rest.add wordCount else rest
    wrapped.clamped

/-- The number a word stands for in two's complement. -/
def ofSigned (w : Word) : Binary64 :=
  ofInt w.toInt

/-- The number a word stands for without a sign. -/
def ofUnsigned (w : Word) : Binary64 :=
  ofNat w.toNat

end Binary64

/-- A shift count: the low five bits of a word. -/
def Word.shiftCount (w : Word) : Nat :=
  w.toNat % 32

end SelectionFormula
