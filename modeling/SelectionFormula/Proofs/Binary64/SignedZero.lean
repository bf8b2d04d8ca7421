import SelectionFormula.Value.Operation
import SelectionFormula.Value.Call
import SelectionFormula.Decimal.Layout
import SelectionFormula.Proofs.Decimal.Unsigned

/-!
The sign of a zero.

Numbers are alike when they are equal but for the sign of a zero (`Alike`): these are the
numbers that compare as the same, with not-a-number alike itself. Alike numbers have one text.

Arithmetic, the comparisons, words and most functions take alike numbers to alike numbers. The
two zeros are told apart in three places: as the divisor of a number that is neither zero nor
not-a-number (`Alike.div`), as the base of a power with a negative odd exponent (`Alike.pow`),
and as a coordinate of an angle (`Alike.atan2`).
-/

namespace SelectionFormula

namespace Binary64

/-- Equal but for the sign of a zero. -/
inductive Alike : Binary64 → Binary64 → Prop
  | refl (x : Binary64) : Alike x x
  | zero (s t : Bool) : Alike (zero s) (zero t)

variable {x x' y y' : Binary64}

theorem Alike.of_eq (eq : x = y) : Alike x y :=
  eq ▸ .refl x

theorem Alike.trans {z : Binary64} (first : Alike x y) (second : Alike y z) : Alike x z := by
  cases first with
  | refl => exact second
  | zero s t =>
    generalize eq : Binary64.zero t = y at second
    cases second with
    | refl => exact eq ▸ .zero s t
    | zero _ u => exact .zero s u

/-- Zeros of different signs. -/
def ZerosDiffer (x y : Binary64) : Prop :=
  ∃ s, x = zero s ∧ y = zero !s

/-- Alike numbers that are not zeros of different signs are equal. -/
theorem Alike.eq_of_kept (alike : Alike x y) (kept : ¬ ZerosDiffer x y) : x = y := by
  cases alike with
  | refl => rfl
  | zero s t =>
    by_cases signs : s = t
    · rw [signs]
    · exact absurd ⟨s, rfl, by rw [Bool.eq_not_of_ne (Ne.symm signs)]⟩ kept

theorem eq_zero_of_isZero (zero : x.isZero = true) : ∃ s, x = .zero s := by
  cases x with
  | finite s m q canonical =>
    obtain rfl : m = 0 := beq_iff_eq.mp zero
    obtain rfl : q = -1074 := canonical.full_or_least.resolve_left (by decide)
    exact ⟨s, rfl⟩
  | _ => cases zero

theorem alike_of_isZero (left : x.isZero = true) (right : y.isZero = true) : Alike x y := by
  obtain ⟨s, rfl⟩ := eq_zero_of_isZero left
  obtain ⟨t, rfl⟩ := eq_zero_of_isZero right
  exact .zero s t

theorem signedRat_zero (s : Bool) (q : Int) : signedRat s 0 q = 0 := by
  cases s <;> simp [signedRat]

/-- Numbers that compare as the same are alike. -/
theorem alike_of_sameNumber (same : x.sameNumber y = true) : Alike x y := by
  cases x <;> cases y <;> try cases same
  · obtain rfl := beq_iff_eq.mp same
    exact .refl _
  · rename_i s m q hm t n r hn
    have values : signedRat s m q = signedRat t n r := beq_iff_eq.mp same
    have left := signedRat_nonneg m q
    have right := signedRat_nonneg n r
    have opposite : ∀ k e, signedRat true k e = -signedRat false k e := fun _ _ => rfl
    by_cases signs : s = t
    · subst signs
      have magnitudes : signedRat false m q = signedRat false n r := by
        cases s with
        | false => exact values
        | true => exact neg_injective values
      obtain ⟨rfl, rfl⟩ := canonical_unique hm hn magnitudes
      exact .refl _
    · -- A number not below zero equals one not above it: both are zero.
      have none : signedRat false m q = 0 ∧ signedRat false n r = 0 := by
        cases s <;> cases t <;> simp only [opposite, not_true_eq_false] at values signs <;>
          constructor <;> linarith
      obtain ⟨rfl, rfl⟩ := canonical_unique hm canonical_zero (none.1.trans (signedRat_zero _ _).symm)
      obtain ⟨rfl, rfl⟩ := canonical_unique hn canonical_zero (none.2.trans (signedRat_zero _ _).symm)
      exact .zero s t

/-! ### What does not see the sign -/

theorem Alike.chars_eq (alike : Alike x y) : x.chars = y.chars := by
  cases alike <;> rfl

theorem Alike.isNaN_eq (alike : Alike x y) : x.isNaN = y.isNaN := by
  cases alike <;> rfl

theorem Alike.isInfinite_eq (alike : Alike x y) : x.isInfinite = y.isInfinite := by
  cases alike <;> rfl

theorem Alike.isZero_eq (alike : Alike x y) : x.isZero = y.isZero := by
  cases alike <;> rfl

theorem Alike.isTruthy_eq (alike : Alike x y) : x.isTruthy = y.isTruthy := by
  cases alike <;> rfl

theorem Alike.toNat_eq (alike : Alike x y) : x.toNat = y.toNat := by
  cases alike with
  | refl => rfl
  | zero s t => simp [Binary64.zero, toNat, signedRat_zero]

/-- What a function does to two numbers it does to alike ones, if it does when one number is
another zero. -/
theorem Alike.lift₂ {β : Type} {related : β → β → Prop} {f : Binary64 → Binary64 → β}
    (refl : ∀ v, related v v) (trans : ∀ {u v w}, related u v → related v w → related u w)
    (first : ∀ s t y, related (f (.zero s) y) (f (.zero t) y))
    (second : ∀ x s t, related (f x (.zero s)) (f x (.zero t)))
    (left : Alike x x') (right : Alike y y') : related (f x y) (f x' y') := by
  have one : related (f x y) (f x' y) := by
    cases left with
    | refl => exact refl _
    | zero s t => exact first s t y
  refine trans one ?_
  cases right with
  | refl => exact refl _
  | zero s t => exact second x' s t

theorem Alike.congr₂ {β : Type} {f : Binary64 → Binary64 → β}
    (first : ∀ s t y, f (.zero s) y = f (.zero t) y)
    (second : ∀ x s t, f x (.zero s) = f x (.zero t))
    (left : Alike x x') (right : Alike y y') : f x y = f x' y' :=
  lift₂ (fun _ => rfl) Eq.trans first second left right

theorem Alike.map₂ {f : Binary64 → Binary64 → Binary64}
    (first : ∀ s t y, Alike (f (.zero s) y) (f (.zero t) y))
    (second : ∀ x s t, Alike (f x (.zero s)) (f x (.zero t)))
    (left : Alike x x') (right : Alike y y') : Alike (f x y) (f x' y') :=
  lift₂ .refl .trans first second left right

theorem Alike.lt_eq (left : Alike x x') (right : Alike y y') : x.lt y = x'.lt y' := by
  refine congr₂ (fun s t y => ?_) (fun x s t => ?_) left right
  · cases y <;> simp [Binary64.zero, lt, signedRat_zero]
  · cases x <;> simp [Binary64.zero, lt, signedRat_zero]

theorem Alike.sameNumber_eq (left : Alike x x') (right : Alike y y') :
    x.sameNumber y = x'.sameNumber y' := by
  refine congr₂ (fun s t y => ?_) (fun x s t => ?_) left right
  · cases y <;> simp [Binary64.zero, sameNumber, signedRat_zero]
  · cases x <;> simp [Binary64.zero, sameNumber, signedRat_zero]

theorem Alike.le_eq (left : Alike x x') (right : Alike y y') : x.le y = x'.le y' := by
  rw [le, le, left.lt_eq right, left.sameNumber_eq right]

/-! ### Arithmetic -/

/-- Rounding sees a sign only in what it gives for zero. -/
theorem alike_ofRat (s t : Bool) {r r' : Rat} (same : r = r') : Alike (ofRat s r) (ofRat t r') := by
  subst same
  by_cases zero : r = 0
  · rw [ofRat, ofRat, dif_pos zero, dif_pos zero]
    exact .zero s t
  · rw [ofRat, ofRat, dif_neg zero, dif_neg zero]
    exact .refl _

/-- A function of one number whose values at the two zeros are alike. -/
theorem Alike.map (f : Binary64 → Binary64) (zeros : ∀ s t, Alike (f (.zero s)) (f (.zero t)))
    (alike : Alike x y) : Alike (f x) (f y) := by
  cases alike with
  | refl => exact .refl _
  | zero s t => exact zeros s t

/-- A function that keeps the zeros. -/
theorem Alike.map_kept (f : Binary64 → Binary64) (kept : ∀ s, f (.zero s) = .zero s)
    (alike : Alike x y) : Alike (f x) (f y) :=
  alike.map f fun s t => by rw [kept, kept]; exact .zero s t

/-- A function with one value at both zeros. -/
theorem Alike.map_const (f : Binary64 → Binary64) (value : Binary64)
    (const : ∀ s, f (.zero s) = value) (alike : Alike x y) : Alike (f x) (f y) :=
  alike.map f fun s t => by rw [const, const]; exact .refl _

theorem Alike.neg (alike : Alike x y) : Alike x.neg y.neg :=
  alike.map Binary64.neg fun s t => .zero (!s) (!t)

theorem Alike.add (left : Alike x x') (right : Alike y y') : Alike (x.add y) (x'.add y') := by
  refine map₂ (fun s t y => ?_) (fun x s t => ?_) left right
  · cases y with
    | finite => exact alike_ofRat _ _ (by simp only [signedRat_zero])
    | _ => exact .refl _
  · cases x with
    | finite => exact alike_ofRat _ _ (by simp only [signedRat_zero])
    | _ => exact .refl _

theorem Alike.sub (left : Alike x x') (right : Alike y y') : Alike (x.sub y) (x'.sub y') :=
  left.add right.neg

theorem Alike.mul (left : Alike x x') (right : Alike y y') : Alike (x.mul y) (x'.mul y') := by
  refine map₂ (fun s t y => ?_) (fun x s t => ?_) left right
  · cases y with
    | finite => exact alike_ofRat _ _ (by simp only [signedRat_zero])
    | _ => exact .refl _
  · cases x with
    | finite => exact alike_ofRat _ _ (by simp only [signedRat_zero])
    | _ => exact .refl _

/-- A zero and not-a-number give not-a-number when divided by a zero; every other number tells
the zeros apart. -/
theorem Alike.div (left : Alike x x') (right : Alike y y')
    (kept : y.ZerosDiffer y' → x.isTruthy = false) : Alike (x.div y) (x'.div y') := by
  have fixed : ∀ y, Alike (x.div y) (x'.div y) := by
    intro y
    refine left.map (·.div y) fun s t => ?_
    cases y with
    | nan => exact .refl _
    | infinite u => exact .zero (s != u) (t != u)
    | finite u n r canonical =>
      show Alike (if n = 0 then _ else _) (if n = 0 then _ else _)
      split
      · exact .refl _
      · exact alike_ofRat _ _ (by simp only [signedRat_zero])
  by_cases differ : y.ZerosDiffer y'
  · have falsy := kept differ
    obtain ⟨s, rfl, rfl⟩ := differ
    refine .trans (.of_eq ?_) (fixed _)
    cases x with
    | nan => rfl
    | infinite => cases falsy
    | finite u m q canonical =>
      obtain rfl : m = 0 := by simpa [isTruthy, isZero, isNaN] using falsy
      rfl
  · exact right.eq_of_kept differ ▸ fixed y

theorem Alike.rem (left : Alike x x') (right : Alike y y') : Alike (x.rem y) (x'.rem y') := by
  refine map₂ (fun s t y => ?_) (fun x s t => ?_) left right
  · cases y with
    | nan => exact .refl _
    | infinite u => exact .zero s t
    | finite u n r canonical =>
      show Alike (if n = 0 then _ else _) (if n = 0 then _ else _)
      split
      · exact .refl _
      · exact alike_ofRat _ _ (by simp only [signedRat_zero])
  · cases x <;> exact .refl _

theorem Alike.integral (toInt : Rat → Int) (alike : Alike x y) :
    Alike (x.integral toInt) (y.integral toInt) :=
  alike.map (Binary64.integral toInt) fun _ _ => alike_ofRat _ _ (by simp only [signedRat_zero])

theorem Alike.round (alike : Alike x y) : Alike x.round y.round :=
  alike.map_kept Binary64.round (by decide +kernel)

theorem Alike.ite {c d : Bool} (same : c = d) (yes : Alike x x') (no : Alike y y') :
    Alike (if c then x else y) (if d then x' else y') := by
  subst same
  split
  · exact yes
  · exact no

theorem Alike.clamped_eq (alike : Alike x y) : x.clamped = y.clamped := by
  cases alike with
  | refl => rfl
  | zero s t =>
    exact congrArg (fun n => BitVec.ofNat 32 (min n 4294967295)) (Alike.zero s t).toNat_eq

theorem Alike.toWord_eq (alike : Alike x y) : x.toWord = y.toWord := by
  have rest : Alike (x.trunc.rem wordCount) (y.trunc.rem wordCount) :=
    (alike.integral _).rem (.refl _)
  have wrapped := Alike.ite (rest.lt_eq (.refl (Binary64.zero false))) (rest.add (.refl wordCount)) rest
  unfold toWord
  dsimp only
  rw [alike.isNaN_eq, alike.isInfinite_eq, wrapped.clamped_eq]

theorem Alike.leadingZeros_eq (alike : Alike x y) : x.leadingZeros = y.leadingZeros := by
  rw [leadingZeros, leadingZeros, alike.toWord_eq]

theorem Alike.wordProduct_eq (left : Alike x x') (right : Alike y y') :
    x.wordProduct y = x'.wordProduct y' := by
  rw [wordProduct, wordProduct, left.toWord_eq, right.toWord_eq]

/-! ### Functions -/

end Binary64

namespace Enclosure

/-- A series that begins with nothing is nothing. -/
theorem series_zero (p : Nat) (ratio : Enclosure) (divisor weight : Nat → Nat) :
    series p zero ratio divisor weight = zero := by
  rw [series, seriesFrom, if_pos (by decide)]
  rfl

/-- Nothing divided by anything is nothing. -/
theorem zero_div (p : Nat) (a : Enclosure) : zero.div p a = zero := by
  have divPos : ∀ b, zero.divPos p b = zero := by
    intro b
    simp [divPos, zero, ceilDiv]
  unfold div
  split
  · exact divPos a
  · exact divPos a.neg

theorem ofRat_zero (p : Nat) : ofRat p 0 = zero := by
  rw [ofRat, zero_mul]
  rfl

theorem asin_zero (p : Nat) : asin p 0 = zero := by
  simp only [asin, ofRat_zero, zero_div, halfTangent, atanSeries, series_zero]
  rfl

theorem add_zero (a : Enclosure) : a.add zero = a := by
  simp [add, zero]

theorem sub_zero (a : Enclosure) : a.sub zero = a := by
  simp [sub, neg, add, zero]

end Enclosure

namespace Binary64

variable {x x' y y' : Binary64}

theorem Alike.acos (alike : Alike x y) : Alike x.acos y.acos :=
  alike.map_const Binary64.acos (settle 0 fun p => (Enclosure.pi p).divNat 2) fun s => by
    simp [Binary64.zero, Binary64.acos, signedRat_zero, Enclosure.asin_zero, Enclosure.add_zero,
      Enclosure.sub_zero]

theorem Alike.acosh (alike : Alike x y) : Alike x.acosh y.acosh :=
  alike.map_const Binary64.acosh .nan fun s => by
    simp [Binary64.zero, Binary64.acosh, signedRat_zero]

theorem Alike.exp (alike : Alike x y) : Alike x.exp y.exp :=
  alike.map_const Binary64.exp one fun s => if_pos (signedRat_zero s _)

theorem Alike.cosh (alike : Alike x y) : Alike x.cosh y.cosh :=
  alike.map_const Binary64.cosh one fun _ => if_pos (signedRat_zero false _)

theorem Alike.expm1 (alike : Alike x y) : Alike x.expm1 y.expm1 :=
  alike.map_kept Binary64.expm1 fun s => if_pos (signedRat_zero s _)

/-- The exponents whose powers of the two zeros are the two infinities. -/
def isNegativeOdd : Binary64 → Bool
  | .finite s m q _ => s && isOddInteger (signedRat s m q)
  | _ => false

/-- Only powers with negative odd exponents tell the zeros apart. -/
theorem Alike.pow (left : Alike x x') (right : Alike y y')
    (kept : x.ZerosDiffer x' → y.isNegativeOdd = false) : Alike (x.pow y) (x'.pow y') := by
  have fixed : ∀ x : Binary64, Alike (x.pow y) (x.pow y') := fun x =>
    right.map_const x.pow one fun _ => by cases x <;> rfl
  refine .trans ?_ (fixed x')
  by_cases differ : x.ZerosDiffer x'
  · have even := kept differ
    obtain ⟨s, rfl, rfl⟩ := differ
    cases y with
    | nan => exact .refl _
    | infinite => exact .refl _
    | finite t n r canonical =>
      show Alike (if n = 0 then one else powExtreme t _) (if n = 0 then one else powExtreme t _)
      split
      · exact .refl _
      · cases t with
        | false => exact .zero _ _
        | true =>
          have even : isOddInteger (signedRat true n r) = false := even
          rw [even, Bool.and_false, Bool.and_false]
          exact .refl _
  · exact .of_eq (by rw [left.eq_of_kept differ])

/-- The angle tells the zeros apart in the ordinate of a point to the left, and in the abscissa
of a point at the origin. -/
theorem Alike.atan2 (left : Alike y y') (right : Alike x x')
    (ordinate : y.ZerosDiffer y' → x.isNegative = false)
    (abscissa : x.ZerosDiffer x' → y.isZero = false) : Alike (y.atan2 x) (y'.atan2 x') := by
  by_cases differ : x.ZerosDiffer x'
  · have nonzero := abscissa differ
    obtain ⟨s, rfl, rfl⟩ := differ
    cases left with
    | zero => cases nonzero
    | refl =>
      cases y with
      | nan => exact .refl _
      | infinite => exact .refl _
      | finite u m q canonical =>
        have nonzero : m ≠ 0 := by simpa [isZero] using nonzero
        exact .of_eq (by simp [Binary64.zero, Binary64.atan2, nonzero])
  · obtain rfl := right.eq_of_kept differ
    by_cases differ : y.ZerosDiffer y'
    · have positive := ordinate differ
      obtain ⟨s, rfl, rfl⟩ := differ
      cases x with
      | nan => exact .refl _
      | infinite t =>
        obtain rfl : t = false := positive
        cases s <;> exact .zero _ _
      | finite t n r canonical =>
        obtain rfl : t = false := positive
        cases s <;> exact .zero _ _
    · exact .of_eq (by rw [left.eq_of_kept differ])

/-! ### Functions of many numbers -/

theorem Alike.hypotenuse (left : Alike x x') (right : Alike y y') :
    Alike (x.hypotenuse y) (x'.hypotenuse y') := by
  refine map₂ (fun s t y => ?_) (fun x s t => ?_) left right
  · cases y <;> simp only [Binary64.zero, Binary64.hypotenuse, signedRat_zero] <;> exact .refl _
  · cases x <;> simp only [Binary64.zero, Binary64.hypotenuse, signedRat_zero] <;> exact .refl _

section Lists

variable {xs ys : List Binary64} (alike : List.Forall₂ Alike xs ys)

include alike

theorem any_eq_of_alike {test : Binary64 → Bool} (blind : ∀ {x y}, Alike x y → test x = test y) :
    xs.any test = ys.any test := by
  induction alike with
  | nil => rfl
  | cons here _ ih => rw [List.any_cons, List.any_cons, blind here, ih]

theorem alike_foldl_hypotenuse (start : Alike x y) :
    Alike (xs.foldl Binary64.hypotenuse x) (ys.foldl Binary64.hypotenuse y) := by
  induction alike generalizing x y with
  | nil => exact start
  | cons here _ ih => exact ih (start.hypotenuse here)

theorem alike_length : Alike (Binary64.length xs) (Binary64.length ys) := by
  unfold Binary64.length
  rw [any_eq_of_alike alike Alike.isInfinite_eq, any_eq_of_alike alike Alike.isNaN_eq]
  split
  · exact .refl _
  · split
    · exact .refl _
    · exact alike_foldl_hypotenuse alike (.refl _)

/-- A choice of the better of two numbers that sees the sign of a zero between two zeros only. -/
theorem alike_extremum {better : Binary64 → Binary64 → Bool}
    (blind : ∀ {x x' best best'}, Alike x x' → Alike best best' →
      better x best = better x' best' ∨ x.isZero = true ∧ best.isZero = true)
    {best best' : Binary64} (start : Alike best best') :
    Alike (extremum better best xs) (extremum better best' ys) := by
  induction alike generalizing best best' with
  | nil => exact start
  | @cons x x' _ _ here _ ih =>
    have next : Alike (if better x best then x else best) (if better x' best' then x' else best') := by
      rcases blind here start with same | ⟨zero, zero'⟩
      · exact .ite same here start
      · -- Between two zeros either choice is a zero.
        have other := here.isZero_eq ▸ zero
        have other' := start.isZero_eq ▸ zero'
        apply alike_of_isZero <;> split <;> assumption
    rw [extremum, extremum, here.isNaN_eq]
    split
    · exact .refl _
    · exact ih next

end Lists

/-- A comparison that asks for signs between two zeros only. -/
theorem eq_or_zeros (above tie : Binary64 → Binary64 → Bool)
    (left : Alike x x') (right : Alike y y') (same : above x y = above x' y') :
    (above x y || (x.isZero && y.isZero && tie x y)) =
        (above x' y' || (x'.isZero && y'.isZero && tie x' y')) ∨
      x.isZero = true ∧ y.isZero = true := by
  rw [← left.isZero_eq, ← right.isZero_eq, same]
  cases x.isZero <;> cases y.isZero <;> simp

theorem alike_maximum {xs ys : List Binary64} (alike : List.Forall₂ Alike xs ys) :
    Alike (maximum xs) (maximum ys) :=
  alike_extremum alike
    (fun here start => eq_or_zeros (fun x best => best.lt x) (fun _ best => best.isNegative) here
      start (start.lt_eq here))
    (.refl _)

theorem alike_minimum {xs ys : List Binary64} (alike : List.Forall₂ Alike xs ys) :
    Alike (minimum xs) (minimum ys) :=
  alike_extremum alike
    (fun here start => eq_or_zeros lt (fun x _ => x.isNegative) here start (here.lt_eq start))
    (.refl _)

end Binary64

end SelectionFormula
