import SelectionFormula.Proofs.Binary64.Nearest
import SelectionFormula.Proofs.Decimal.Coercion
import SelectionFormula.Proofs.Decimal.Normal

/-!
The grammar of number literals, and what the texts of selections stand for.

`RadixForm` and `DecimalForm` say which texts are literals and what they denote, `StandsFor` which
texts stand for a number, all without an order in which rules are tried. The readers accept these
texts and no others: `exponent?_eq_some_iff`, `mantissaForm_iff` and `spells_ten_iff` for the parts,
`rational?_eq_some_iff` for a decimal literal, `isSome_radix?_iff` for a radix literal and
`isSome_number?_iff` for either. Of the decimal reader no more is used than that it keeps to the
grammar where it is asked (`numberBy?_eq`). No text is both (`DecimalForm.radix?_eq_none`), and a
decimal literal begins with no sign (`DecimalForm.splitSign_eq`); so coercion, which tries one rule
after another, yields what a text stands for (`coerceChars_eq_iff`).
-/

namespace SelectionFormula

open Binary64

namespace Literal

/-! ### The grammar -/

/-- A character is the digit of a value in a radix, a letter in either case. -/
def IsDigitOf (radix value : Nat) (c : Char) : Prop :=
  value < radix ∧ (c = value.digitChar ∨ c = value.digitChar.toUpper)

/-- Digits of a radix and the natural number that they spell. -/
inductive Spells (radix : Nat) : List Char → Nat → Prop
  | nil : Spells radix [] 0
  | snoc {digits : List Char} {c : Char} {n value : Nat} : Spells radix digits n →
      IsDigitOf radix value c → Spells radix (digits ++ [c]) (n * radix + value)

/-- What may stand behind the zero of a radix literal, and the radix. -/
def radixLetters : List (Char × Nat) :=
  [('x', 16), ('X', 16), ('o', 8), ('O', 8), ('b', 2), ('B', 2)]

/-- A radix literal and the natural number that its digits spell. -/
inductive RadixForm (radix : Nat) : List Char → Nat → Prop
  | mk {letter : Char} {digits : List Char} {n : Nat} : (letter, radix) ∈ radixLetters →
      digits ≠ [] → Spells radix digits n → RadixForm radix ('0' :: letter :: digits) n

/-- Decimal digits with a point behind some of them, a point in front of them or no point, and
what they denote. -/
inductive MantissaForm : List Char → Rat → Prop
  | whole {digits : List Char} {n : Nat} : digits ≠ [] → Spells 10 digits n →
      MantissaForm digits n
  | pointed {digits part : List Char} {n k : Nat} : digits ≠ [] → Spells 10 digits n →
      Spells 10 part k → MantissaForm (digits ++ '.' :: part) (n + k / 10 ^ part.length)
  | point {part : List Char} {k : Nat} : part ≠ [] → Spells 10 part k →
      MantissaForm ('.' :: part) (k / 10 ^ part.length)

/-- No exponent, or its letter, a sign or none, and digits. -/
inductive ExponentForm : List Char → Int → Prop
  | none : ExponentForm [] 0
  | unsigned {letter : Char} {digits : List Char} {n : Nat} : letter = 'e' ∨ letter = 'E' →
      digits ≠ [] → Spells 10 digits n → ExponentForm (letter :: digits) n
  | plus {letter : Char} {digits : List Char} {n : Nat} : letter = 'e' ∨ letter = 'E' →
      digits ≠ [] → Spells 10 digits n → ExponentForm (letter :: '+' :: digits) n
  | minus {letter : Char} {digits : List Char} {n : Nat} : letter = 'e' ∨ letter = 'E' →
      digits ≠ [] → Spells 10 digits n → ExponentForm (letter :: '-' :: digits) (-n)

/-- A decimal literal and the rational that it denotes. -/
inductive DecimalForm : List Char → Rat → Prop
  | mk {mantissa tail : List Char} {r : Rat} {e : Int} : MantissaForm mantissa r →
      ExponentForm tail e → DecimalForm (mantissa ++ tail) (r * 10 ^ e)

/-! ### Digits -/

variable {digits text : List Char} {radix n value : Nat} {c : Char}

theorem digitValue?_digitChar (below : value < radix) (few : radix ≤ 16) :
    digitValue? radix value.digitChar = some value ∧
      digitValue? radix value.digitChar.toUpper = some value := by
  have digit : ∀ v < 16, digitValue? 16 v.digitChar = some v ∧
      digitValue? 16 v.digitChar.toUpper = some v := by decide
  have widen : ∀ {c : Char}, digitValue? 16 c = some value → digitValue? radix c = some value := by
    intro c found
    unfold digitValue? at found ⊢
    rw [Option.filter_eq_some_iff] at found ⊢
    exact ⟨found.1, by simpa using below⟩
  exact (digit value (by omega)).imp widen widen

/-- The code points of the digits from ten on. -/
theorem toNat_letterDigit {v : Nat} (below : v < 6) :
    (v + 10).digitChar.toNat = 97 + v ∧ (v + 10).digitChar.toUpper.toNat = 65 + v := by
  have codes : ∀ v < 6, (v + 10).digitChar.toNat = 97 + v ∧
      (v + 10).digitChar.toUpper.toNat = 65 + v := by decide
  exact codes v below

theorem isDigitOf_of_digitValue? (found : digitValue? radix c = some value) :
    IsDigitOf radix value c := by
  unfold digitValue? at found
  obtain ⟨found, below⟩ := Option.filter_eq_some_iff.mp found
  refine ⟨by simpa using below, ?_⟩
  split at found
  · next digit =>
    obtain rfl := Option.some.inj found
    exact .inl (digitChar_of_isDigit digit).2.symm
  · split at found
    · next lower =>
      obtain rfl := Option.some.inj found
      have low : 97 ≤ c.toNat := lower.1
      have high : c.toNat ≤ 102 := lower.2
      have code := (toNat_letterDigit (v := c.toNat - 97) (by omega)).1
      refine .inl (Char.toNat_inj.mp ?_)
      change c.toNat = (c.toNat - 97 + 10).digitChar.toNat
      omega
    · split at found
      · next upper =>
        obtain rfl := Option.some.inj found
        have low : 65 ≤ c.toNat := upper.1
        have high : c.toNat ≤ 70 := upper.2
        have code := (toNat_letterDigit (v := c.toNat - 65) (by omega)).2
        refine .inr (Char.toNat_inj.mp ?_)
        change c.toNat = (c.toNat - 65 + 10).digitChar.toUpper.toNat
        omega
      · cases found

/-- Digits have values just when they are those of the radix. -/
theorem digitValue?_eq_some_iff (few : radix ≤ 16) :
    digitValue? radix c = some value ↔ IsDigitOf radix value c := by
  refine ⟨isDigitOf_of_digitValue?, ?_⟩
  rintro ⟨below, rfl | rfl⟩
  · exact (digitValue?_digitChar below few).1
  · exact (digitValue?_digitChar below few).2

/-- A reading that goes from digit to digit along what they spell ends with what all of them
spell. -/
theorem Spells.exists_values {α : Type} {push : α → Nat → α} {reading : Nat → α}
    (few : radix ≤ 16) (step : ∀ n, ∀ value < radix,
      push (reading n) value = reading (n * radix + value)) (spelled : Spells radix digits n) :
    ∃ values, digits.mapM (digitValue? radix) = some values ∧
      values.foldl push (reading 0) = reading n := by
  induction spelled with
  | nil => exact ⟨[], rfl, rfl⟩
  | @snoc digits c n value spelled digit ih =>
    obtain ⟨values, front, total⟩ := ih
    refine ⟨values ++ [value], ?_, ?_⟩
    · rw [List.mapM_append, front, List.mapM_cons, (digitValue?_eq_some_iff few).mpr digit]
      rfl
    · rw [List.foldl_append, total]
      exact step n value digit.1

/-- What digits spell is what their values add up to, each one place behind those before it. -/
theorem spells_iff (few : radix ≤ 16) : Spells radix digits n ↔
    ∃ values, digits.mapM (digitValue? radix) = some values ∧
      values.foldl (fun sofar value => sofar * radix + value) 0 = n := by
  constructor
  · exact @Spells.exists_values digits radix n Nat _ id few fun n value below => rfl
  · rintro ⟨values, front, rfl⟩
    induction digits using List.reverseRecOn generalizing values with
    | nil =>
      obtain rfl : [] = values := Option.some.inj front
      exact .nil
    | append_singleton digits c ih =>
      rw [List.mapM_append] at front
      obtain ⟨before, found, front⟩ := Option.bind_eq_some_iff.mp front
      obtain ⟨last, one, front⟩ := Option.bind_eq_some_iff.mp front
      rw [List.mapM_cons, List.mapM_nil] at one
      obtain ⟨value, digit, one⟩ := Option.bind_eq_some_iff.mp one
      obtain rfl : [value] = last := Option.some.inj one
      obtain rfl : before ++ [value] = values := Option.some.inj front
      rw [List.foldl_append]
      exact .snoc (ih before found) (isDigitOf_of_digitValue? digit)

/-- Decimal digits are one digit of ten after another. -/
theorem spells_ten_iff : Spells 10 digits n ↔ AllDigits digits ∧ natOfDigits digits = n := by
  have decimal : ∀ {c : Char} {value : Nat}, IsDigitOf 10 value c →
      c.isDigit = true ∧ c.toNat - '0'.toNat = value := by
    have digit : ∀ v < 10, (v.digitChar.isDigit = true ∧ v.digitChar.toNat - '0'.toNat = v) ∧
        v.digitChar.toUpper = v.digitChar := by decide
    rintro c value ⟨below, rfl | rfl⟩
    · exact (digit value below).1
    · rw [(digit value below).2]
      exact (digit value below).1
  constructor
  · intro spelled
    induction spelled with
    | nil => exact ⟨nofun, rfl⟩
    | snoc spelled digit ih =>
      obtain ⟨isDigit, value_eq⟩ := decimal digit
      refine ⟨ih.1.append fun c mem => List.mem_singleton.mp mem ▸ isDigit, ?_⟩
      rw [natOfDigits, Nat.ofDigitChars_append, ← natOfDigits, ih.2, Nat.ofDigitChars_cons,
        Nat.ofDigitChars_nil, value_eq, Nat.mul_comm]
  · rintro ⟨all, rfl⟩
    induction digits using List.reverseRecOn with
    | nil => exact .nil
    | append_singleton digits c ih =>
      have digit : c.isDigit = true := all c (by simp)
      obtain ⟨small, same⟩ := digitChar_of_isDigit digit
      rw [natOfDigits, Nat.ofDigitChars_append, Nat.ofDigitChars_cons, Nat.ofDigitChars_nil,
        Nat.mul_comm]
      exact .snoc (ih fun c mem => all c (by simp [mem])) ⟨small, .inl same.symm⟩

/-! ### Decimal literals -/

theorem digits?_eq_some_iff : digits? text = some n ↔ text ≠ [] ∧ Spells 10 text n := by
  unfold digits?
  constructor
  · intro found
    split at found
    · next both =>
      obtain rfl := Option.some.inj found
      exact ⟨both.1, spells_ten_iff.mpr ⟨List.all_eq_true.mp both.2, rfl⟩⟩
    · cases found
  · rintro ⟨some_digit, spelled⟩
    obtain ⟨all, rfl⟩ := spells_ten_iff.mp spelled
    exact if_pos ⟨some_digit, List.all_eq_true.mpr all⟩

/-- Where the digits of an exponent have no sign. -/
theorem exponentDigits?_of_spells (some_digit : digits ≠ []) (spelled : Spells 10 digits n) :
    exponentDigits? digits = some (n : Int) := by
  have found : digits? digits = some n := digits?_eq_some_iff.mpr ⟨some_digit, spelled⟩
  have all := (spells_ten_iff.mp spelled).1
  unfold exponentDigits?
  split
  · cases all '+' List.mem_cons_self
  · cases all '-' List.mem_cons_self
  · rw [found]
    rfl

theorem exponent?_eq_some_iff {e : Int} : exponent? text = some e ↔ ExponentForm text e := by
  constructor
  · have signed : ∀ {digits : List Char} {f : Int → Int},
        ((digits? digits : Option Nat) : Option Int).map f = some e →
        ∃ n : Nat, digits ≠ [] ∧ Spells 10 digits n ∧ e = f n := by
      intro digits f found
      obtain ⟨n, accepted⟩ := digits_of_map found
      obtain ⟨some_digit, spelled⟩ := digits?_eq_some_iff.mp accepted
      rw [accepted] at found
      exact ⟨n, some_digit, spelled, (Option.some.inj found).symm⟩
    intro found
    unfold exponent? at found
    split at found
    · obtain rfl := Option.some.inj found
      exact .none
    · split at found
      · next exponential =>
        unfold exponentDigits? at found
        split at found <;> obtain ⟨n, some_digit, spelled, rfl⟩ := signed found
        · exact .plus exponential some_digit spelled
        · exact .minus exponential some_digit spelled
        · exact .unsigned exponential some_digit spelled
      · cases found
  · intro form
    cases form with
    | none => rfl
    | unsigned exponential some_digit spelled =>
      rw [exponent?, if_pos exponential]
      exact exponentDigits?_of_spells some_digit spelled
    | plus exponential some_digit spelled | minus exponential some_digit spelled =>
      rw [exponent?, if_pos exponential, exponentDigits?,
        digits?_eq_some_iff.mpr ⟨some_digit, spelled⟩]
      rfl

/-- A mantissa is digits with a point among them, at one of their ends or nowhere. -/
theorem mantissaForm_iff {r : Rat} : MantissaForm text r ↔ ∃ whole point part,
    text = whole ++ point ++ part ∧ AllDigits whole ∧ AllDigits part ∧
      (point = ['.'] ∨ point = [] ∧ part = []) ∧ whole ++ part ≠ [] ∧
      r = natOfDigits (whole ++ part) / 10 ^ part.length := by
  have joined : ∀ whole part : List Char, (natOfDigits (whole ++ part) / 10 ^ part.length : Rat) =
      natOfDigits whole + natOfDigits part / 10 ^ part.length := by
    intro whole part
    rw [natOfDigits, Nat.ofDigitChars_append, Nat.ofDigitChars_eq_ofDigitChars_zero, natOfDigits,
      natOfDigits]
    push_cast
    rw [add_div, mul_div_cancel_left₀ _ (by positivity)]
  have none : AllDigits [] := by simp [AllDigits]
  constructor
  · intro form
    cases form with
    | whole some_digit spelled =>
      obtain ⟨all, rfl⟩ := spells_ten_iff.mp spelled
      exact ⟨text, [], [], by simp, all, none, .inr ⟨rfl, rfl⟩, by simpa using some_digit,
        by simp⟩
    | @pointed digits part _ _ some_digit front behind =>
      obtain ⟨hw, rfl⟩ := spells_ten_iff.mp front
      obtain ⟨hp, rfl⟩ := spells_ten_iff.mp behind
      exact ⟨digits, ['.'], part, by simp, hw, hp, .inl rfl, by simp [some_digit],
        (joined digits part).symm⟩
    | @point part _ some_digit behind =>
      obtain ⟨hp, rfl⟩ := spells_ten_iff.mp behind
      exact ⟨[], ['.'], part, rfl, none, hp, .inl rfl, some_digit, rfl⟩
  · rintro ⟨whole, point, part, rfl, hw, hp, rfl | ⟨rfl, rfl⟩, some_digit, rfl⟩
    · by_cases empty : whole = []
      · subst empty
        exact .point some_digit (spells_ten_iff.mpr ⟨hp, rfl⟩)
      · rw [joined, List.append_assoc]
        exact .pointed empty (spells_ten_iff.mpr ⟨hw, rfl⟩) (spells_ten_iff.mpr ⟨hp, rfl⟩)
    · simp only [List.append_nil, List.length_nil, pow_zero, div_one] at some_digit ⊢
      exact .whole some_digit (spells_ten_iff.mpr ⟨hw, rfl⟩)

/-- What is read of a decimal literal is what it denotes. -/
theorem rational?_eq_some_iff {r : Rat} : rational? text = some r ↔ DecimalForm text r := by
  have shifted : ∀ (n k : Nat) (e : Int),
      (n * 10 ^ (e - k) : Rat) = n / 10 ^ k * 10 ^ e := by
    intro n k e
    rw [zpow_sub₀ (by norm_num), zpow_natCast]
    ring
  constructor
  · intro found
    obtain ⟨⟨digits, place⟩, parts, rfl⟩ := Option.map_eq_some_iff.mp found
    obtain ⟨whole, point, part, tail, e, rfl, hw, hp, pointed, some_digit, exponent, rfl, rfl⟩ :=
      exists_of_decimalParts? parts
    rw [shifted]
    exact .mk (mantissaForm_iff.mpr ⟨whole, point, part, rfl, hw, hp, pointed, some_digit, rfl⟩)
      (exponent?_eq_some_iff.mp exponent)
  · rintro ⟨mantissa, exponent⟩
    obtain ⟨whole, point, part, rfl, hw, hp, pointed, some_digit, rfl⟩ :=
      mantissaForm_iff.mp mantissa
    rw [rational?_eq hw hp pointed some_digit (exponent?_eq_some_iff.mpr exponent), shifted]

theorem DecimalForm.nonneg {r : Rat} (form : DecimalForm text r) : 0 ≤ r := by
  obtain ⟨mantissa, -⟩ := form
  obtain ⟨whole, point, part, -, -, -, -, -, rfl⟩ := mantissaForm_iff.mp mantissa
  positivity

/-- A decimal literal has the value nearest to the rational that it denotes. -/
theorem decimal?_eq_some_iff {v : Binary64} :
    decimal? text = some v ↔ ∃ r, DecimalForm text r ∧ IsNearest v r := by
  rw [decimal?_eq_rational?, Option.map_eq_some_iff]
  refine exists_congr fun r => ?_
  rw [rational?_eq_some_iff]
  refine and_congr_right fun form => ?_
  rw [isNearest_iff form.nonneg, eq_comm]

/-- No letter of a decimal literal selects a radix. -/
theorem DecimalForm.radix?_eq_none {r : Rat} (form : DecimalForm text r) : radix? text = none := by
  obtain ⟨mantissa, exponent⟩ := form
  obtain ⟨whole, point, part, rfl, hw, hp, pointed, -⟩ := mantissaForm_iff.mp mantissa
  refine radix?_eq_none_of_letters (List.forall_mem_append.mpr ⟨?_, ?_⟩)
  · exact fun c mem => radixOf?_of_plain (plain_of_mantissa hw hp pointed c mem)
  · rcases exists_of_exponent? (exponent?_eq_some_iff.mpr exponent) with
      rfl | ⟨letter, sign, digits, rfl, exponential, signed, -, all⟩
    · exact nofun
    · have front : ∀ c ∈ letter :: sign, radixOf? c = none := by
        rcases exponential with rfl | rfl <;> rcases signed with rfl | rfl | rfl <;>
          simp [radixOf?]
      exact List.forall_mem_append.mpr ⟨front, fun c mem => radixOf?_of_plain (.inl (all c mem))⟩

/-! ### Radix literals -/

theorem radixOf?_eq_some_iff : radixOf? c = some radix ↔ (c, radix) ∈ radixLetters := by
  unfold radixOf?
  constructor
  · intro found
    split at found
    · next either => rcases either with rfl | rfl <;> cases found <;> decide
    · split at found
      · next either => rcases either with rfl | rfl <;> cases found <;> decide
      · split at found
        · next either => rcases either with rfl | rfl <;> cases found <;> decide
        · cases found
  · intro mem
    simp only [radixLetters, List.mem_cons, Prod.mk.injEq, List.not_mem_nil, or_false] at mem
    rcases mem with ⟨rfl, rfl⟩ | ⟨rfl, rfl⟩ | ⟨rfl, rfl⟩ | ⟨rfl, rfl⟩ | ⟨rfl, rfl⟩ | ⟨rfl, rfl⟩ <;>
      rfl

theorem radix_le_of_mem (mem : (c, radix) ∈ radixLetters) : radix ≤ 16 := by
  have all : ∀ entry ∈ radixLetters, entry.2 ≤ 16 := by decide
  exact all _ mem

/-- What has a value as a radix literal is the zero, the letter and digits of that radix. -/
theorem radix?_eq_some_iff {v : Binary64} : radix? text = some v ↔
    ∃ letter digits radix values, text = '0' :: letter :: digits ∧ digits ≠ [] ∧
      (letter, radix) ∈ radixLetters ∧ digits.mapM (digitValue? radix) = some values ∧
      v = values.foldl (pushDigit radix) (Binary64.zero false) := by
  constructor
  · intro found
    obtain ⟨letter, digits, radix, values, split, some_digit, selected, rest⟩ :=
      exists_of_radix? found
    exact ⟨letter, digits, radix, values, split, some_digit, radixOf?_eq_some_iff.mp selected, rest⟩
  · rintro ⟨letter, digits, radix, values, rfl, some_digit, selected, found, rfl⟩
    obtain ⟨first, rest, rfl⟩ := List.exists_cons_of_ne_nil some_digit
    rw [radix?, radixOf?_eq_some_iff.mpr selected]
    simp only [Option.bind_eq_bind, Option.bind_some, found]
    rfl

theorem isSome_radix?_iff : (radix? text).isSome ↔ ∃ radix n, RadixForm radix text n := by
  rw [Option.isSome_iff_exists]
  constructor
  · rintro ⟨v, found⟩
    obtain ⟨letter, digits, radix, values, rfl, some_digit, selected, found, -⟩ :=
      radix?_eq_some_iff.mp found
    exact ⟨radix, _, .mk selected some_digit
      ((spells_iff (radix_le_of_mem selected)).mpr ⟨values, found, rfl⟩)⟩
  · rintro ⟨radix, n, @⟨letter, digits, _, selected, some_digit, spelled⟩⟩
    obtain ⟨values, found, -⟩ := (spells_iff (radix_le_of_mem selected)).mp spelled
    exact ⟨_, radix?_eq_some_iff.mpr
      ⟨letter, digits, radix, values, rfl, some_digit, selected, found, rfl⟩⟩

/-! ### Literals -/

theorem DecimalForm.number?_eq_some_iff {r : Rat} {v : Binary64} (form : DecimalForm text r) :
    number? text = some v ↔ IsNearest v r := by
  rw [number?_of_radix?_eq_none form.radix?_eq_none]
  refine (decimal?_eq_some_iff (v := v)).trans ⟨?_, fun nearest => ⟨r, form, nearest⟩⟩
  rintro ⟨r', form', nearest⟩
  have same := (rational?_eq_some_iff.mpr form').symm.trans (rational?_eq_some_iff.mpr form)
  exact Option.some.inj same ▸ nearest

/-- Every literal is a radix literal or a decimal one, and these are literals. -/
theorem isSome_number?_iff : (number? text).isSome ↔
    (∃ radix n, RadixForm radix text n) ∨ ∃ r, DecimalForm text r := by
  rw [← isSome_radix?_iff]
  cases radix : radix? text with
  | some value =>
    rw [number?_of_radix? radix]
    exact iff_of_true rfl (.inl rfl)
  | none =>
    rw [number?_of_radix?_eq_none radix, decimal?_eq_rational?, Option.isSome_map,
      Option.isSome_iff_exists]
    simp [rational?_eq_some_iff]

/-- With any reader that accepts, among the texts it is asked about, the decimal literals alone, each
as the number nearest to what it denotes, literals have the same values. -/
theorem numberBy?_eq {reader : List Char → Option Binary64}
    (reads : ∀ text, isDecimalText text = true → ∀ v,
      reader text = some v ↔ ∃ r, DecimalForm text r ∧ IsNearest v r) :
    numberBy? reader = number? :=
  numberBy?_congr fun text asked =>
    Option.ext fun v => (reads text asked v).trans decimal?_eq_some_iff.symm

end Literal

/-! ### What selections stand for -/

open Literal

variable {text : List Char} {v : Binary64}

theorem Text.trim_eq_nil_iff : Text.trim text = [] ↔ Text.AllBlank text := by
  constructor
  · intro empty
    obtain ⟨trail, blank, split⟩ := Text.trim_split text
    rw [split, empty, List.append_nil]
    exact (Text.allBlank_takeWhile text).append blank
  · intro blank
    exact (Text.trim_append_allBlank blank []).trans rfl

/-- What may stand behind a sign: infinity or a decimal literal, and its value. -/
def IsMagnitude (text : List Char) (v : Binary64) : Prop :=
  text = "Infinity".toList ∧ v = .infinite false ∨ ∃ r, DecimalForm text r ∧ IsNearest v r

/-- The signs, and whether a number behind them is negated. -/
def signs : List (Char × Bool) :=
  [('+', false), ('-', true)]

/-- What the text of a selection stands for, blanks around it left out. -/
inductive StandsFor (text : List Char) : Binary64 → Prop
  | blank : Text.AllBlank text → StandsFor text (.zero false)
  | literal {v : Binary64} : number? (Text.trim text) = some v → StandsFor text v
  | infinity : Text.trim text = "Infinity".toList → StandsFor text (.infinite false)
  | signed {sign : Char} {negative : Bool} {magnitude : List Char} {v : Binary64} :
      (sign, negative) ∈ signs → Text.trim text = sign :: magnitude → IsMagnitude magnitude v →
      StandsFor text (if negative then v.neg else v)

theorem coercedMagnitude?_eq_some_iff : coercedMagnitude? text = some v ↔ IsMagnitude text v := by
  unfold coercedMagnitude? IsMagnitude
  split
  · next word =>
    have undenoted : ∀ r, ¬ DecimalForm text r := by
      intro r form
      have denoted := rational?_eq_some_iff.mpr form
      rw [word] at denoted
      cases denoted
    constructor
    · intro found
      exact .inl ⟨word, (Option.some.inj found).symm⟩
    · rintro (⟨-, rfl⟩ | ⟨r, form, -⟩)
      · rfl
      · exact absurd form (undenoted r)
  · next other =>
    split
    · next radix =>
      constructor
      · nofun
      · rintro (⟨word, -⟩ | ⟨r, form, -⟩)
        · exact absurd word other
        · rw [form.radix?_eq_none] at radix
          cases radix
    · next plain =>
      rw [number?_of_radix?_eq_none (Option.not_isSome_iff_eq_none.mp plain), decimal?_eq_some_iff]
      exact (or_iff_right fun ⟨word, _⟩ => other word).symm

/-- A text begins with a sign, or all of it is taken for the magnitude. -/
theorem splitSign_cases (text : List Char) :
    (∃ sign negative magnitude, (sign, negative) ∈ signs ∧ text = sign :: magnitude ∧
      splitSign text = (negative, magnitude)) ∨ splitSign text = (false, text) := by
  unfold splitSign
  split
  · exact .inl ⟨'-', true, _, by decide, rfl, rfl⟩
  · exact .inl ⟨'+', false, _, by decide, rfl, rfl⟩
  · exact .inr rfl

theorem splitSign_of_mem {sign : Char} {negative : Bool} (mem : (sign, negative) ∈ signs)
    (magnitude : List Char) : splitSign (sign :: magnitude) = (negative, magnitude) ∧
      radix? (sign :: magnitude) = none := by
  simp only [signs, List.mem_cons, Prod.mk.injEq, List.not_mem_nil, or_false] at mem
  rcases mem with ⟨rfl, rfl⟩ | ⟨rfl, rfl⟩ <;> exact ⟨rfl, rfl⟩

/-- A decimal literal begins with no sign. -/
theorem Literal.DecimalForm.splitSign_eq {r : Rat} (form : DecimalForm text r) :
    splitSign text = (false, text) := by
  obtain ⟨v, decimal⟩ : ∃ v, decimal? text = some v :=
    ⟨_, decimal?_eq_some_iff.mpr ⟨r, form, (isNearest_iff form.nonneg).mpr rfl⟩⟩
  obtain ⟨mantissa, rest, e, rfl, nonempty, plain, -⟩ := exists_mantissa decimal
  obtain ⟨first, later, rfl⟩ := List.exists_cons_of_ne_nil nonempty
  rcases splitSign_cases (first :: later ++ rest) with
    ⟨sign, negative, magnitude, mem, split, -⟩ | whole
  · obtain rfl : first = sign := (List.cons.inj split).1
    have firm : ∀ entry ∈ signs, ¬ (entry.1.isDigit = true ∨ entry.1 = '.') := by decide
    exact absurd (plain first List.mem_cons_self) (firm _ mem)
  · exact whole

/-- What becomes of a text that is no radix literal. -/
theorem coerceChars_of_radix? (some_text : Text.trim text ≠ [])
    (plain : radix? (Text.trim text) = none) {negative : Bool} {magnitude : List Char}
    (split : splitSign (Text.trim text) = (negative, magnitude)) :
    coerceChars text =
      ((coercedMagnitude? magnitude).map fun v => if negative then v.neg else v).getD .nan := by
  simp only [coerceChars, if_neg some_text, plain, split]
  cases coercedMagnitude? magnitude <;> rfl

/-- A selection's text is coerced to what it stands for. -/
theorem StandsFor.coerceChars_eq (stands : StandsFor text v) : coerceChars text = v := by
  have magnitude : ∀ {negative : Bool} {magnitude : List Char} {v : Binary64},
      Text.trim text ≠ [] → radix? (Text.trim text) = none →
      splitSign (Text.trim text) = (negative, magnitude) → IsMagnitude magnitude v →
      coerceChars text = if negative then v.neg else v := by
    intro negative magnitude v some_text plain split isMagnitude
    rw [coerceChars_of_radix? some_text plain split, coercedMagnitude?_eq_some_iff.mpr isMagnitude]
    rfl
  cases stands with
  | blank blank => rw [coerceChars, if_pos (Text.trim_eq_nil_iff.mpr blank)]
  | infinity word =>
    refine @magnitude false _ _ ?_ ?_ ?_ (.inl ⟨word, rfl⟩) <;> rw [word]
    · decide
    · rfl
    · rfl
  | signed mem split isMagnitude =>
    obtain ⟨sign_eq, plain⟩ := splitSign_of_mem mem _
    exact magnitude (by simp [split]) (by rw [split, plain]) (by rw [split, sign_eq]) isMagnitude
  | literal found =>
    have some_text : Text.trim text ≠ [] := by
      intro empty
      rw [empty] at found
      cases found
    cases radix : radix? (Text.trim text) with
    | some value =>
      rw [number?_of_radix? radix] at found
      rw [← Option.some.inj found, coerceChars, if_neg some_text, radix]
    | none =>
      rw [number?_of_radix?_eq_none radix] at found
      obtain ⟨r, form, nearest⟩ := decimal?_eq_some_iff.mp found
      exact magnitude some_text radix form.splitSign_eq (.inr ⟨r, form, nearest⟩)

/-- Coercion yields what a text stands for, or no number. -/
theorem standsFor_or_nan (text : List Char) :
    StandsFor text (coerceChars text) ∨ coerceChars text = .nan := by
  by_cases empty : Text.trim text = []
  · rw [coerceChars, if_pos empty]
    exact .inl (.blank (Text.trim_eq_nil_iff.mp empty))
  cases radix : radix? (Text.trim text) with
  | some value =>
    rw [coerceChars, if_neg empty, radix]
    exact .inl (.literal (number?_of_radix? radix))
  | none =>
    rcases splitSign_cases (Text.trim text) with ⟨sign, negative, magnitude, mem, start, split⟩ | split
    all_goals
      rw [coerceChars_of_radix? empty radix split]
    · cases found : coercedMagnitude? magnitude with
      | none => exact .inr rfl
      | some v => exact .inl (.signed mem start (coercedMagnitude?_eq_some_iff.mp found))
    · cases found : coercedMagnitude? (Text.trim text) with
      | none => exact .inr rfl
      | some v =>
        rcases coercedMagnitude?_eq_some_iff.mp found with ⟨word, rfl⟩ | ⟨r, form, nearest⟩
        · exact .inl (.infinity word)
        · exact .inl (.literal (form.number?_eq_some_iff.mpr nearest))

/-- A selection is coerced to what its text stands for, and to no number if that is nothing. -/
theorem coerceChars_eq_iff : coerceChars text = v ↔
    StandsFor text v ∨ v = .nan ∧ ∀ w, ¬ StandsFor text w := by
  constructor
  · rintro rfl
    by_cases stands : ∃ w, StandsFor text w
    · obtain ⟨w, stands⟩ := stands
      exact .inl (stands.coerceChars_eq.symm ▸ stands)
    · have nothing := not_exists.mp stands
      exact .inr ⟨(standsFor_or_nan text).resolve_left (nothing _), nothing⟩
  · rintro (stands | ⟨rfl, nothing⟩)
    · exact stands.coerceChars_eq
    · exact (standsFor_or_nan text).resolve_left (nothing _)

/-- Literals are read by their grammar, decimal ones as the number nearest to what they denote, and
the text of a selection as what it stands for. -/
theorem literals_by_grammar :
    (∀ text, (number? text).isSome ↔
      (∃ radix n, RadixForm radix text n) ∨ ∃ r, DecimalForm text r) ∧
    (∀ text r, DecimalForm text r → ∃ v, number? text = some v ∧ IsNearest v r) ∧
    ∀ (text : String) v, coerceNumber text = v ↔
      StandsFor text.toList v ∨ v = .nan ∧ ∀ w, ¬ StandsFor text.toList w := by
  refine ⟨fun text => isSome_number?_iff, fun text r form => ?_, fun text v => coerceChars_eq_iff⟩
  have nearest : IsNearest (ofRat false r) r := (isNearest_iff form.nonneg).mpr rfl
  exact ⟨_, form.number?_eq_some_iff.mpr nearest, nearest⟩

theorem literals_by_grammar_half : DecimalForm ".5".toList (1 / 2) ∧
    (∃ v, number? ".5".toList = some v ∧ IsNearest v (1 / 2)) ∧
    coerceNumber " -Infinity " = .infinite true := by
  have half : DecimalForm ".5".toList (1 / 2) := by
    have five : IsDigitOf 10 5 '5' := ⟨by decide, .inl rfl⟩
    have denoted := DecimalForm.mk (.point (by decide) (.snoc .nil five)) .none
    norm_num at denoted
    exact denoted
  have minus : ('-', true) ∈ signs := by decide
  have trimmed : Text.trim " -Infinity ".toList = '-' :: "Infinity".toList := by decide
  exact ⟨half, literals_by_grammar.2.1 _ _ half, (literals_by_grammar.2.2 _ _).mpr
    (.inl (.signed minus trimmed (.inl ⟨rfl, rfl⟩)))⟩

end SelectionFormula
