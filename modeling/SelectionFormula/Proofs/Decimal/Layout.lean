import SelectionFormula.Proofs.Decimal.Coercion
import SelectionFormula.Proofs.Decimal.Normal

/-!
The layout of a number is exact and canonical.

A finite number other than zero is laid out from the normal form of its shortest decimal. Every
cut of the digits and every count of zeros is in range (`layout?_eq`). Without an exponent the
text has one of the two forms of `Mantissa`, and this is so for the numbers from `1e-6` to below
`1e21` in size and for no others (`isModerate_iff`); with one it is `Scientific`. What is written
denotes the shortest decimal with the number's sign (`signedRational?_layout`), and finite numbers
with the same text are equal (`toRat?_coerceChars`).
-/

namespace SelectionFormula

open Binary64 Literal

variable {digits : List Char} {point : Int}

/-! ### Cuts and counts -/

/-- Zeros to fill a number of places, if that is not negative. -/
def zeros? (places : Int) : Option (List Char) :=
  if 0 ≤ places then some (zeros places) else none

/-- Digits in front of a place and behind it, if it is no further than their end. -/
def cutAt? (digits : List Char) (place : Int) : Option (List Char × List Char) :=
  if 0 ≤ place ∧ place ≤ digits.length then some (digits.splitAt place.toNat) else none

/-- Digits laid out around a point, with every cut and every count checked. -/
def layout? (digits : List Char) (point : Int) : Option (List Char) :=
  if digits.length ≤ point ∧ point ≤ 21 then do
    return digits ++ (← zeros? (point - digits.length))
  else if 0 < point ∧ point ≤ 21 then do
    let (whole, part) ← cutAt? digits point
    return whole ++ '.' :: part
  else if -6 < point ∧ point ≤ 0 then do
    return '0' :: '.' :: ((← zeros? (-point)) ++ digits)
  else do
    let (first, rest) ← cutAt? digits 1
    return first ++ (if rest = [] then [] else '.' :: rest) ++ exponentText (point - 1)

/-- No cut or count of a layout is out of range. -/
theorem layout?_eq (nonempty : digits ≠ []) (point : Int) :
    layout? digits point = some (layout digits point) := by
  unfold layout? layout
  split
  · next behind =>
    rw [zeros?, if_pos (by omega)]
    rfl
  · split
    · next inside =>
      rw [cutAt?, if_pos (by omega), List.splitAt_eq]
      rfl
    · split
      · next front =>
        rw [zeros?, if_pos (by omega)]
        rfl
      · have length := List.length_pos_iff.mpr nonempty
        rw [cutAt?, if_pos (by omega)]
        match digits with
        | [first] => simp
        | first :: second :: rest => simp

/-! ### Shapes -/

/-- A number without an exponent: an integer part that begins with no zero, or is one in front of
a point, and behind a point digits that do not end with a zero. -/
inductive Mantissa : List Char → Prop
  | whole {digits : List Char} : AllDigits digits → digits ≠ [] → digits.head? ≠ some '0' →
      Mantissa digits
  | pointed {whole part : List Char} : AllDigits whole → AllDigits part →
      whole = ['0'] ∨ whole ≠ [] ∧ whole.head? ≠ some '0' →
      part ≠ [] → part.getLast? ≠ some '0' → Mantissa (whole ++ '.' :: part)

/-- The first digit, and the others behind a point if there are any. -/
def scientificMantissa : List Char → List Char
  | first :: second :: rest => first :: '.' :: second :: rest
  | digits => digits

/-- The first digit, the others behind a point, and an exponent: its letter, its sign and its
digits, of which the first is not zero. -/
def Scientific (digits : List Char) (exponent : Int) (text : List Char) : Prop :=
  ∃ places,
    text = scientificMantissa digits ++ 'e' :: (if exponent < 0 then '-' else '+') :: places ∧
    Mantissa (scientificMantissa digits) ∧ AllDigits places ∧ places ≠ [] ∧
    places.head? ≠ some '0' ∧ natOfDigits places = exponent.natAbs

theorem Mantissa.plain {text : List Char} (mantissa : Mantissa text) :
    ∀ c ∈ text, c.isDigit = true ∨ c = '.' := by
  cases mantissa with
  | whole all => exact fun c mem => .inl (all c mem)
  | @pointed whole part hw hp =>
    have plain := plain_of_mantissa hw hp (.inl rfl)
    simpa using plain

theorem not_mantissa_of_scientific {exponent : Int} {text : List Char}
    (scientific : Scientific digits exponent text) : ¬ Mantissa text := by
  obtain ⟨places, rfl, -⟩ := scientific
  intro mantissa
  rcases mantissa.plain 'e' (by simp) with digit | point
  · cases digit
  · cases point

variable {value : Rat}

/-- Near their point digits are laid out without an exponent. -/
theorem mantissa_layout (normal : NormalDigits digits point value) (low : -6 < point)
    (high : point ≤ 21) : Mantissa (layout digits point) := by
  obtain ⟨all, nonempty, head, last, -⟩ := normal
  unfold layout
  split
  · refine .whole (all.append (allDigits_zeros _)) (by simp [nonempty]) ?_
    rwa [List.head?_append_of_ne_nil _ nonempty]
  · split
    · next inside =>
      have front : point.toNat ≠ 0 := by omega
      have behind : ¬ digits.length ≤ point.toNat := by omega
      refine .pointed (fun c mem => all c (List.mem_of_mem_take mem))
        (fun c mem => all c (List.mem_of_mem_drop mem)) (.inr ⟨?_, ?_⟩) ?_ ?_
      · simp [nonempty, front]
      · rwa [List.head?_take, if_neg front]
      · simpa using behind
      · rwa [List.getLast?_drop, if_neg behind]
    · rw [if_pos (by omega)]
      refine @Mantissa.pointed ['0'] _ (allDigits_zeros 1) ((allDigits_zeros _).append all)
        (.inl rfl) (by simp [nonempty]) ?_
      rwa [List.getLast?_append_of_ne_nil _ nonempty]

theorem exponentText_eq (e : Int) : exponentText e =
    'e' :: (if e < 0 then '-' else '+') :: Nat.toDigits 10 e.natAbs := by
  unfold exponentText
  split <;> rfl

/-- Far from their point digits are laid out with an exponent. -/
theorem scientific_layout (normal : NormalDigits digits point value)
    (far : point ≤ -6 ∨ 21 < point) : Scientific digits (point - 1) (layout digits point) := by
  obtain ⟨all, nonempty, head, last, -⟩ := normal
  have laid : layout digits point = scientificMantissa digits ++ exponentText (point - 1) := by
    unfold layout
    rw [if_neg (by omega), if_neg (by omega), if_neg (by omega)]
    match digits with
    | [first] => rfl
    | first :: second :: rest => rfl
  have mantissa : Mantissa (scientificMantissa digits) := by
    match digits with
    | [first] => exact .whole all nonempty head
    | first :: second :: rest =>
      obtain ⟨digit, behind⟩ := List.forall_mem_cons.mp all
      refine @Mantissa.pointed [first] _ (List.forall_mem_singleton.mpr digit) behind
        (.inr ⟨by simp, head⟩) (by simp) ?_
      rwa [List.getLast?_cons_cons] at last
  refine ⟨Nat.toDigits 10 (point - 1).natAbs, by rw [laid, exponentText_eq], mantissa, ?_,
    Nat.toDigits_ne_nil, head?_toDigits (by omega), Nat.ofDigitChars_ten_toDigits⟩
  exact fun c mem => Nat.isDigit_of_mem_toDigits (by decide) (by decide) mem

/-! ### What is written -/

/-- From the number nearest to `1e-6` to below `1e21` in size. -/
def Binary64.isModerate (x : Binary64) : Bool :=
  (nearestDecimal 1 (-6)).le x.abs && x.abs.lt (nearestDecimal 1 21)

/-- What a decimal with a minus sign in front of it or none denotes. -/
def Literal.signedRational? : List Char → Option Rat
  | '-' :: text => (rational? text).map (-·)
  | text => rational? text

theorem isModerate_iff (negative : Bool) {m : Nat} {q : Int} (canonical : Canonical m q)
    (positive : 0 < m) : (finite negative m q canonical).isModerate = true ↔
      -6 < (shortest m q).pointPosition ∧ (shortest m q).pointPosition ≤ 21 := by
  obtain ⟨front, behind⟩ := point_iff canonical positive
  have size : (finite false m q canonical).toRat? = some ((m : Rat) * 2 ^ q) := by
    simp [toRat?, signedRat]
  have micro : (nearestDecimal 1 (-6)).toRat? = some (4722366482869645 * 2 ^ (-72 : Int)) := by
    simp [nearestDecimal_micro, toRat?, signedRat]
  have sextillion : (nearestDecimal 1 21).toRat? = some (10 ^ 21) := by
    rw [nearestDecimal_sextillion, toRat?, signedRat]
    norm_num
  rw [isModerate, Binary64.abs, le_eq micro size, lt_eq size sextillion, front, behind,
    Bool.and_eq_true, decide_eq_true_eq, decide_eq_true_eq]

/-- Digits laid out around a point, behind a minus sign or not, denote what they spell. -/
theorem signedRational?_layout (all : AllDigits digits) (nonempty : digits ≠ []) (point : Int)
    (negative : Bool) :
    signedRational? (if negative then '-' :: layout digits point else layout digits point) =
      some (if negative then -(natOfDigits digits * 10 ^ (point - digits.length) : Rat)
        else natOfDigits digits * 10 ^ (point - digits.length)) := by
  have denoted := rational?_layout all nonempty point
  cases negative with
  | true => exact congrArg (Option.map (-·)) denoted
  | false =>
    obtain ⟨c, head, digit⟩ := head?_layout all nonempty point
    obtain ⟨rest, laid⟩ := List.head?_eq_some_iff.mp head
    have unsigned : signedRational? (layout digits point) = rational? (layout digits point) := by
      rw [laid]
      unfold signedRational?
      split
      · next same => cases same; cases digit
      · rfl
    exact unsigned.trans denoted

/-- What is written for a finite number stands for its value. -/
theorem toRat?_coerceChars {x : Binary64} {a : Rat} (exact : x.toRat? = some a) :
    (coerceChars x.chars).toRat? = some a := by
  cases x with
  | nan => cases exact
  | infinite => cases exact
  | finite negative m q canonical =>
    rcases Nat.eq_zero_or_pos m with rfl | positive
    · have read : coerceChars ['0'] = .zero false := by decide
      rw [chars_zero, read, toRat?_zero, ← exact]
      simp [toRat?, signedRat]
    · rwa [coerceChars_chars_finite negative canonical positive]

/-- A finite number other than zero, whose shortest decimal has the digits `d₁…dₖ` and the value
`0.d₁…dₖ × 10 ^ point`, is written as its sign and these digits laid out around the point, no cut or
count out of range. This denotes the decimal with the number's sign. It is without an exponent
just for numbers from `1e-6` to below `1e21` in size, and otherwise `d₁.d₂…dₖe±n` with
`point - 1` for an exponent. Any printed form of the shortest decimal leads to these digits and
this point. Finite numbers with the same text are equal. -/
theorem Binary64.text_canonical :
    (∀ (negative : Bool) {m : Nat} {q : Int} (canonical : Canonical m q) {digits : List Char}
        {point : Int}, 0 < m → NormalDigits digits point (shortest m q).toRat →
      ∃ magnitude, (finite negative m q canonical).text.toList =
          (if negative then '-' :: magnitude else magnitude) ∧
        layout? digits point = some magnitude ∧
        signedRational? (finite negative m q canonical).text.toList =
          some (if negative then -(shortest m q).toRat else (shortest m q).toRat) ∧
        (Mantissa magnitude ↔ (finite negative m q canonical).isModerate = true) ∧
        ((finite negative m q canonical).isModerate = false →
          Scientific digits (point - 1) magnitude) ∧
        ∀ printed, rational? printed = some (shortest m q).toRat →
          normalized printed = (digits, point)) ∧
    ∀ {x y : Binary64} {a b : Rat}, x.toRat? = some a → y.toRat? = some b → x.text = y.text →
      a = b := by
  constructor
  · intro negative m q canonical digits point positive normal
    have moderate := isModerate_iff negative canonical positive
    have written := chars_finite negative canonical positive
    obtain ⟨digits_eq, point_eq⟩ :=
      normal.unique (normal_significantDigits (digits_shortest_pos canonical positive))
    rw [← digits_eq, ← point_eq] at written
    rw [← point_eq] at moderate
    have nonzero : (shortest m q).toRat ≠ 0 := by
      have inside := contains_shortest canonical positive
      exact (pos_of_contains positive inside).ne'
    have text : (finite negative m q canonical).text.toList =
        if negative then '-' :: layout digits point else layout digits point := by
      rw [Binary64.text, String.toList_ofList, written]
    have far : (finite negative m q canonical).isModerate = false →
        Scientific digits (point - 1) (layout digits point) := by
      intro outside
      rw [Bool.eq_false_iff, ne_eq, moderate] at outside
      exact scientific_layout normal (by omega)
    refine ⟨layout digits point, text, layout?_eq normal.nonempty point, ?_, ?_, far, ?_⟩
    · rw [text, signedRational?_layout normal.allDigits normal.nonempty, normal.value_eq]
    · constructor
      · intro mantissa
        by_contra outside
        exact not_mantissa_of_scientific (far (Bool.eq_false_iff.mpr outside)) mantissa
      · intro inside
        obtain ⟨low, high⟩ := moderate.mp inside
        exact mantissa_layout normal low high
    · intro printed denoted
      obtain ⟨same_digits, same_point⟩ := (normal_normalized denoted nonzero).unique normal
      exact Prod.ext same_digits same_point
  · intro x y a b hx hy same
    have chars : x.chars = y.chars := String.ofList_injective same
    have read := toRat?_coerceChars hx
    rw [chars, toRat?_coerceChars hy] at read
    exact (Option.some.inj read).symm

/-- The negative of `1e21`, the first size that is written with an exponent, and the two zeros. -/
theorem Binary64.text_canonical_sextillion :
    NormalDigits ['1'] 22 (shortest 7629394531250000 17).toRat ∧
    (finite true 7629394531250000 17 canonical_sextillion).text.toList = "-1e+21".toList ∧
    (zero true).text = (zero false).text ∧
    signedRat true 0 (-1074) = signedRat false 0 (-1074) := by
  have normal : NormalDigits ['1'] 22 (shortest 7629394531250000 17).toRat := by
    have positive : 0 < (⟨1, 21⟩ : Decimal).digits := by decide
    rw [shortest_sextillion]
    exact normal_significantDigits positive
  obtain ⟨magnitude, written, laid, -⟩ :=
    Binary64.text_canonical.1 true canonical_sextillion (by decide) normal
  obtain rfl : "1e+21".toList = magnitude := Option.some.inj laid
  have zeros : (zero true).text = (zero false).text := rfl
  exact ⟨normal, written, zeros, Binary64.text_canonical.2 rfl rfl zeros⟩

end SelectionFormula
