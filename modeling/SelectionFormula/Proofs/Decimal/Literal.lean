import Mathlib.Data.List.TakeDrop
import Mathlib.Data.List.TakeWhile
import SelectionFormula.Decimal.Literal
import SelectionFormula.Expr.Name
import SelectionFormula.Text.Blank

/-!
What number literals are made of.

A decimal literal's value goes by its digits and the exponent of the last one
(`decimal?_eq_map`), which `decimalParts?_eq` gives for a text put together and
`exists_of_decimalParts?` finds in one that is accepted; `exists_of_radix?` does the latter for a
radix literal. A decimal literal passes the test of its characters (`isDecimalText_of_decimal?`), so
that test only matters to readers that accept more (`numberBy?_congr`). A literal's characters are
those of words, but for the sign of an exponent (`number?_chars`); none of them is blank
(`isBlank_eq_false_of_number?`).
-/

namespace SelectionFormula

/-- A character of a word: one of a name, or a point. -/
def isWordChar (c : Char) : Bool :=
  isNameChar c || c == '.'

theorem isNameChar_of_isDigit {c : Char} (digit : c.isDigit = true) : isNameChar c = true := by
  simp [isNameChar, Char.isAlphanum, digit]

theorem isWordChar_of_isNameChar {c : Char} (name : isNameChar c = true) :
    isWordChar c = true := by
  simp [isWordChar, name]

theorem isWordChar_of_isDigit {c : Char} (digit : c.isDigit = true) : isWordChar c = true :=
  isWordChar_of_isNameChar (isNameChar_of_isDigit digit)

namespace Literal

/-- Nothing but decimal digits. -/
def AllDigits (text : List Char) : Prop :=
  ∀ c ∈ text, c.isDigit = true

theorem AllDigits.append {s t : List Char} (hs : AllDigits s) (ht : AllDigits t) :
    AllDigits (s ++ t) := by
  intro c mem
  rcases List.mem_append.mp mem with mem | mem
  · exact hs c mem
  · exact ht c mem

/-- Digits in front of something that is no digit are what a reading of digits takes. -/
theorem span_digits {digits rest : List Char} (all : AllDigits digits)
    (ends : ∀ c ∈ rest.head?, c.isDigit = false) :
    (digits ++ rest).span Char.isDigit = (digits, rest) := by
  have stops : rest.takeWhile Char.isDigit = [] ∧ rest.dropWhile Char.isDigit = rest := by
    cases rest with
    | nil => exact ⟨rfl, rfl⟩
    | cons c rest =>
      have : ¬ c.isDigit = true := by simp [ends c rfl]
      exact ⟨List.takeWhile_cons_of_neg this, List.dropWhile_cons_of_neg this⟩
  rw [List.span_eq_takeWhile_dropWhile, List.takeWhile_append_of_pos all,
    List.dropWhile_append_of_pos all, stops.1, stops.2, List.append_nil]

/-- The digits of a decimal literal, the point left out, and the exponent of the last one. -/
def decimalParts? (text : List Char) : Option (List Char × Int) :=
  let (whole, rest) := text.span Char.isDigit
  let (part, rest) := fraction rest
  if whole = [] ∧ part = [] then none
  else (exponent? rest).map fun e => (whole ++ part, e - part.length)

theorem decimal?_eq_map (text : List Char) : decimal? text =
    (decimalParts? text).map fun parts => nearestDecimal (natOfDigits parts.1) parts.2 := by
  simp only [decimal?, decimalParts?]
  split
  · rfl
  · rw [Option.map_map]
    rfl

/-- What a decimal literal denotes, before it is rounded. -/
def rational? (text : List Char) : Option Rat :=
  (decimalParts? text).map fun parts => natOfDigits parts.1 * 10 ^ parts.2

/-- The parts of digits, a point among them or at one of their ends, and an exponent. -/
theorem decimalParts?_eq {whole point part tail : List Char} {e : Int} (hw : AllDigits whole)
    (hp : AllDigits part) (pointed : point = ['.'] ∨ point = [] ∧ part = [])
    (some_digit : whole ++ part ≠ []) (exponent : exponent? tail = some e) :
    decimalParts? (whole ++ point ++ part ++ tail) = some (whole ++ part, e - part.length) := by
  have occupied : ¬ (whole = [] ∧ part = []) := by
    rintro ⟨rfl, rfl⟩
    exact some_digit rfl
  have letter : ∀ c ∈ tail.head?, c.isDigit = false ∧ c ≠ '.' := by
    cases tail with
    | nil => simp
    | cons c tail =>
      rintro _ ⟨⟩
      have exponential : c = 'e' ∨ c = 'E' := by
        by_contra other
        simp [exponent?, other] at exponent
      rcases exponential with rfl | rfl <;> decide
  have behind : fraction (point ++ part ++ tail) = (part, tail) := by
    rcases pointed with rfl | ⟨rfl, rfl⟩
    · exact span_digits hp fun c mem => (letter c mem).1
    · cases tail with
      | nil => rfl
      | cons c tail =>
        have other : c ≠ '.' := (letter c rfl).2
        simp [fraction, other]
  have front : (whole ++ (point ++ part ++ tail)).span Char.isDigit =
      (whole, point ++ part ++ tail) := by
    refine span_digits hw fun c mem => ?_
    rcases pointed with rfl | ⟨rfl, rfl⟩
    · cases mem
      decide
    · exact (letter c mem).1
  rw [List.append_assoc, List.append_assoc, ← List.append_assoc point]
  simp only [decimalParts?, front, behind, if_neg occupied, exponent, Option.map_some]

/-- What digits, a point among them or at one of their ends, and an exponent denote. -/
theorem rational?_eq {whole point part tail : List Char} {e : Int} (hw : AllDigits whole)
    (hp : AllDigits part) (pointed : point = ['.'] ∨ point = [] ∧ part = [])
    (some_digit : whole ++ part ≠ []) (exponent : exponent? tail = some e) :
    rational? (whole ++ point ++ part ++ tail) =
      some (natOfDigits (whole ++ part) * 10 ^ (e - part.length) : Rat) := by
  rw [rational?, decimalParts?_eq hw hp pointed some_digit exponent]
  rfl

/-- Digits with a point among them or at one of their ends denote what they spell without it, in
places of the last one. -/
theorem rational?_pointed {whole part : List Char} (hw : AllDigits whole) (hp : AllDigits part)
    (some_digit : whole ++ part ≠ []) : rational? (whole ++ '.' :: part) =
      some (natOfDigits (whole ++ part) * 10 ^ (-part.length : Int) : Rat) := by
  have denoted := rational?_eq hw hp (.inl rfl) some_digit (show exponent? [] = some 0 from rfl)
  simpa using denoted

/-- Digits alone denote the natural number that they spell. -/
theorem rational?_whole {whole : List Char} (hw : AllDigits whole) (some_digit : whole ≠ []) :
    rational? whole = some (natOfDigits whole : Rat) := by
  have none : AllDigits [] := fun c mem => nomatch mem
  have denoted := rational?_eq hw none (.inr ⟨rfl, rfl⟩) (by simpa using some_digit)
    (show exponent? [] = some 0 from rfl)
  simpa using denoted

/-- Where the parts of a decimal literal stand in it. -/
theorem exists_of_decimalParts? {text digits : List Char} {place : Int}
    (accepted : decimalParts? text = some (digits, place)) :
    ∃ whole point part rest e, text = whole ++ point ++ part ++ rest ∧
      AllDigits whole ∧ AllDigits part ∧ (point = ['.'] ∨ point = [] ∧ part = []) ∧
      whole ++ part ≠ [] ∧ exponent? rest = some e ∧
      digits = whole ++ part ∧ place = e - part.length := by
  obtain ⟨whole, rest, split, hw, cut⟩ : ∃ whole rest, text = whole ++ rest ∧ AllDigits whole ∧
      text.span Char.isDigit = (whole, rest) :=
    ⟨_, _, List.takeWhile_append_dropWhile.symm, fun _ mem => List.mem_takeWhile_imp mem,
      List.span_eq_takeWhile_dropWhile ..⟩
  obtain ⟨point, part, tail, rest_eq, hp, pointed, cut'⟩ : ∃ point part tail,
      rest = point ++ part ++ tail ∧ AllDigits part ∧ (point = ['.'] ∨ point = [] ∧ part = []) ∧
      fraction rest = (part, tail) := by
    unfold fraction
    split
    · next text =>
      refine ⟨['.'], text.takeWhile Char.isDigit, text.dropWhile Char.isDigit, ?_,
        fun _ mem => List.mem_takeWhile_imp mem, .inl rfl, List.span_eq_takeWhile_dropWhile ..⟩
      simp [List.takeWhile_append_dropWhile]
    · exact ⟨[], [], _, rfl, by simp [AllDigits], .inr ⟨rfl, rfl⟩, rfl⟩
  simp only [decimalParts?, cut, cut'] at accepted
  split at accepted
  · cases accepted
  · next occupied =>
    obtain ⟨e, exponent, parts⟩ := Option.map_eq_some_iff.mp accepted
    obtain ⟨rfl, rfl⟩ := Prod.mk.inj parts
    refine ⟨whole, point, part, tail, e, by simp [split, rest_eq], hw, hp, pointed, ?_, exponent,
      rfl, rfl⟩
    intro empty
    exact occupied (List.append_eq_nil_iff.mp empty)

/-- The parts of a text that has a value as a decimal literal. -/
theorem exists_of_decimal? {text : List Char} {value : Binary64}
    (accepted : decimal? text = some value) :
    ∃ whole point part rest e, text = whole ++ point ++ part ++ rest ∧
      AllDigits whole ∧ AllDigits part ∧ (point = ['.'] ∨ point = [] ∧ part = []) ∧
      whole ++ part ≠ [] ∧ exponent? rest = some e ∧
      value = nearestDecimal (natOfDigits (whole ++ part)) (e - part.length) := by
  rw [decimal?_eq_map] at accepted
  obtain ⟨⟨digits, place⟩, parts, rfl⟩ := Option.map_eq_some_iff.mp accepted
  obtain ⟨whole, point, part, rest, e, split, hw, hp, pointed, some_digit, exponent, rfl, rfl⟩ :=
    exists_of_decimalParts? parts
  exact ⟨whole, point, part, rest, e, split, hw, hp, pointed, some_digit, exponent, rfl⟩

/-- In front of an exponent there are digits and a point or none. -/
theorem plain_of_mantissa {whole point part : List Char} (hw : AllDigits whole)
    (hp : AllDigits part) (pointed : point = ['.'] ∨ point = [] ∧ part = []) :
    ∀ c ∈ whole ++ point ++ part, c.isDigit = true ∨ c = '.' := by
  intro c mem
  rcases List.mem_append.mp mem with mem | mem
  · rcases List.mem_append.mp mem with mem | mem
    · exact .inl (hw c mem)
    · rcases pointed with rfl | ⟨rfl, -⟩
      · exact .inr (List.mem_singleton.mp mem)
      · cases mem
  · exact .inl (hp c mem)

/-- A decimal literal is digits, with a point or without, and an exponent or nothing. -/
theorem exists_mantissa {text : List Char} {value : Binary64}
    (accepted : decimal? text = some value) :
    ∃ mantissa rest e, text = mantissa ++ rest ∧ mantissa ≠ [] ∧
      (∀ c ∈ mantissa, c.isDigit = true ∨ c = '.') ∧ exponent? rest = some e := by
  obtain ⟨whole, point, part, rest, e, rfl, hw, hp, pointed, some_digit, exponent, -⟩ :=
    exists_of_decimal? accepted
  refine ⟨whole ++ point ++ part, rest, e, rfl, ?_, plain_of_mantissa hw hp pointed, exponent⟩
  intro empty
  obtain ⟨front, rfl⟩ := List.append_eq_nil_iff.mp empty
  exact some_digit (by rw [(List.append_eq_nil_iff.mp front).1, List.append_nil])

/-- The parts of a text that has a value as a radix literal. -/
theorem exists_of_radix? {text : List Char} {value : Binary64}
    (accepted : radix? text = some value) :
    ∃ letter digits radix values, text = '0' :: letter :: digits ∧ digits ≠ [] ∧
      radixOf? letter = some radix ∧ digits.mapM (digitValue? radix) = some values ∧
      value = values.foldl (pushDigit radix) (Binary64.zero false) := by
  unfold radix? at accepted
  split at accepted
  · next letter first rest =>
    obtain ⟨radix, radix_eq, accepted⟩ := Option.bind_eq_some_iff.mp accepted
    obtain ⟨values, values_eq, accepted⟩ := Option.bind_eq_some_iff.mp accepted
    exact ⟨letter, first :: rest, radix, values, rfl, by simp, radix_eq, values_eq,
      (Option.some.inj accepted).symm⟩
  · cases accepted

/-! ### Characters -/

section Codes

variable {c : Char}

theorem isDigit_iff : c.isDigit = true ↔ 48 ≤ c.toNat ∧ c.toNat ≤ 57 :=
  Bool.and_eq_true_iff.trans (and_congr decide_eq_true_iff decide_eq_true_iff)

theorem isUpper_iff : c.isUpper = true ↔ 65 ≤ c.toNat ∧ c.toNat ≤ 90 :=
  decide_eq_true_iff

theorem isLower_iff : c.isLower = true ↔ 97 ≤ c.toNat ∧ c.toNat ≤ 122 :=
  Bool.and_eq_true_iff.trans (and_congr decide_eq_true_iff decide_eq_true_iff)

theorem isNameStart_eq : isNameStart c = (c.isUpper || c.isLower || c == '_') :=
  rfl

theorem isNameChar_eq : isNameChar c = (c.isUpper || c.isLower || c.isDigit || c == '_') :=
  rfl

end Codes

theorem isNameChar_of_digitValue? {radix value : Nat} {c : Char}
    (digit : digitValue? radix c = some value) : isNameChar c = true := by
  have classed : c.isDigit = true ∨ ('a' ≤ c ∧ c ≤ 'f') ∨ ('A' ≤ c ∧ c ≤ 'F') := by
    unfold digitValue? at digit
    grind
  rcases classed with digit | ⟨low, high⟩ | ⟨low, high⟩
  · exact isNameChar_of_isDigit digit
  · have lower : c.isLower = true := isLower_iff.mpr ⟨low, Nat.le_trans high (by decide)⟩
    simp [isNameChar_eq, lower]
  · have upper : c.isUpper = true := isUpper_iff.mpr ⟨low, Nat.le_trans high (by decide)⟩
    simp [isNameChar_eq, upper]

theorem isNameChar_of_radixOf? {radix : Nat} {c : Char} (letter : radixOf? c = some radix) :
    isNameChar c = true := by
  unfold radixOf? at letter
  split at letter
  · next either => rcases either with rfl | rfl <;> decide
  · split at letter
    · next either => rcases either with rfl | rfl <;> decide
    · split at letter
      · next either => rcases either with rfl | rfl <;> decide
      · cases letter

theorem exists_of_mem_mapM {α β : Type} {f : α → Option β} {xs : List α} {ys : List β}
    (all : xs.mapM f = some ys) {x : α} (mem : x ∈ xs) : ∃ y, f x = some y := by
  induction xs generalizing ys with
  | nil => cases mem
  | cons x' xs ih =>
    rw [List.mapM_cons] at all
    obtain ⟨y, first, all⟩ := Option.bind_eq_some_iff.mp all
    obtain ⟨rest, later, -⟩ := Option.bind_eq_some_iff.mp all
    rcases List.mem_cons.mp mem with rfl | mem
    · exact ⟨y, first⟩
    · exact ih later mem

theorem digits?_allDigits {text : List Char} {n : Nat} (accepted : digits? text = some n) :
    AllDigits text := by
  unfold digits? at accepted
  split at accepted
  · next both => exact List.all_eq_true.mp both.2
  · cases accepted

theorem digits_of_map {text : List Char} {e : Int} {f : Int → Int}
    (accepted : ((digits? text : Option Nat) : Option Int).map f = some e) :
    ∃ n, digits? text = some n := by
  cases digits : digits? text with
  | none => simp [digits] at accepted
  | some n => exact ⟨n, rfl⟩

/-- The letter of an exponent, a sign or none, and digits. -/
theorem exists_of_exponent? {text : List Char} {e : Int} (accepted : exponent? text = some e) :
    text = [] ∨ ∃ letter sign digits, text = letter :: sign ++ digits ∧
      (letter = 'e' ∨ letter = 'E') ∧ (sign = [] ∨ sign = ['+'] ∨ sign = ['-']) ∧
      digits ≠ [] ∧ AllDigits digits := by
  have spelled : ∀ {digits : List Char} {n : Nat}, digits? digits = some n →
      digits ≠ [] ∧ AllDigits digits := by
    intro digits n accepted
    refine ⟨?_, digits?_allDigits accepted⟩
    rintro rfl
    cases accepted
  unfold exponent? at accepted
  split at accepted
  · exact .inl rfl
  · next letter behind =>
    refine .inr ⟨letter, ?_⟩
    split at accepted
    · next exponential =>
      unfold exponentDigits? at accepted
      split at accepted
      · next digits =>
        obtain ⟨n, found⟩ := digits_of_map accepted
        exact ⟨['+'], digits, rfl, exponential, .inr (.inl rfl), spelled found⟩
      · next digits =>
        obtain ⟨n, found⟩ := digits_of_map accepted
        exact ⟨['-'], digits, rfl, exponential, .inr (.inr rfl), spelled found⟩
      · obtain ⟨n, found⟩ := digits_of_map accepted
        exact ⟨[], behind, rfl, exponential, .inl rfl, spelled found⟩
    · cases accepted

theorem exponent?_chars {text : List Char} {e : Int} (accepted : exponent? text = some e) :
    ∀ c ∈ text, isWordChar c = true ∨ c = '+' ∨ c = '-' := by
  intro c mem
  rcases exists_of_exponent? accepted with
    rfl | ⟨letter, sign, digits, rfl, exponential, one, -, all⟩
  · cases mem
  rcases List.mem_append.mp mem with mem | mem
  · rcases List.mem_cons.mp mem with rfl | mem
    · rcases exponential with rfl | rfl <;> exact .inl rfl
    · rcases one with rfl | rfl | rfl
      · cases mem
      · exact .inr (.inl (List.mem_singleton.mp mem))
      · exact .inr (.inr (List.mem_singleton.mp mem))
  · exact .inl (isWordChar_of_isDigit (all c mem))

/-- The characters of a radix literal are those of names. -/
theorem isNameChar_of_radix? {text : List Char} {value : Binary64}
    (accepted : radix? text = some value) :
    ∀ c ∈ text, isNameChar c = true := by
  obtain ⟨letter, digits, base, values, rfl, -, letter_eq, digits_eq, -⟩ :=
    exists_of_radix? accepted
  intro c mem
  rcases List.mem_cons.mp mem with rfl | mem
  · rfl
  rcases List.mem_cons.mp mem with rfl | mem
  · exact isNameChar_of_radixOf? letter_eq
  · obtain ⟨value, digit⟩ := exists_of_mem_mapM digits_eq mem
    exact isNameChar_of_digitValue? digit

theorem isWordChar_of_mantissa {c : Char} (plain : c.isDigit = true ∨ c = '.') :
    isWordChar c = true := by
  rcases plain with digit | rfl
  · exact isWordChar_of_isDigit digit
  · rfl

/-! ### Literals -/

theorem isDecimalChar_of_mantissa {c : Char} (plain : c.isDigit = true ∨ c = '.') :
    isDecimalChar c = true := by
  rcases plain with digit | rfl
  · simp [isDecimalChar, digit]
  · rfl

/-- A decimal literal is a text that its reader is asked about. -/
theorem isDecimalText_of_decimal? {text : List Char} {value : Binary64}
    (accepted : decimal? text = some value) : isDecimalText text = true := by
  obtain ⟨mantissa, rest, e, rfl, nonempty, plain, exponent⟩ := exists_mantissa accepted
  have behind : ∀ c ∈ rest, isDecimalChar c = true := by
    rcases exists_of_exponent? exponent with
      rfl | ⟨letter, sign, digits, rfl, exponential, one, -, all⟩
    · exact List.forall_mem_nil _
    · refine List.forall_mem_append.mpr ⟨?_, fun c mem => ?_⟩
      · rcases exponential with rfl | rfl <;> rcases one with rfl | rfl | rfl <;>
          exact List.all_eq_true.mp rfl
      · exact isDecimalChar_of_mantissa (.inl (all c mem))
  obtain ⟨first, later, rfl⟩ := List.exists_cons_of_ne_nil nonempty
  have start : (first.isDigit || first == '.') = true := by
    simpa using plain first List.mem_cons_self
  have whole : ∀ c ∈ first :: later ++ rest, isDecimalChar c = true :=
    List.forall_mem_append.mpr ⟨fun c mem => isDecimalChar_of_mantissa (plain c mem), behind⟩
  rw [List.cons_append, isDecimalText, start, Bool.and_true]
  exact List.all_eq_true.mpr whole

theorem number?_of_radix? {text : List Char} {value : Binary64} (found : radix? text = some value) :
    number? text = some value := by
  rw [number?, numberBy?, found]

/-- What is no radix literal is left to the decimal reader, which gives nothing for the texts that
it is not asked about. -/
theorem number?_of_radix?_eq_none {text : List Char} (plain : radix? text = none) :
    number? text = decimal? text := by
  rw [number?, numberBy?, plain]
  dsimp only
  split
  · rfl
  · next other =>
    cases accepted : decimal? text with
    | none => rfl
    | some value => exact absurd (isDecimalText_of_decimal? accepted) other

/-- Any reader that reads decimal literals in the same way can take the place of this one, whatever
it makes of other texts. -/
theorem numberBy?_congr {reader : List Char → Option Binary64}
    (agrees : ∀ text, isDecimalText text = true → reader text = decimal? text) :
    numberBy? reader = number? := by
  funext text
  rw [number?, numberBy?, numberBy?]
  cases radix? text with
  | some value => rfl
  | none =>
    dsimp only
    split
    · next asked => exact agrees text asked
    · rfl

/-- No reader is asked about a word or a signed number. -/
example : isDecimalText "inf".toList = false ∧ isDecimalText "-1".toList = false := by
  decide

theorem number?_cases {text : List Char} {value : Binary64} (accepted : number? text = some value) :
    radix? text = some value ∨ decimal? text = some value := by
  cases radix : radix? text with
  | some other => exact .inl ((number?_of_radix? radix).symm.trans accepted)
  | none => exact .inr ((number?_of_radix?_eq_none radix).symm.trans accepted)

/-- The characters of a literal are those of words, but for an exponent's sign. -/
theorem number?_chars {text : List Char} {value : Binary64} (accepted : number? text = some value) :
    ∀ c ∈ text, isWordChar c = true ∨ c = '+' ∨ c = '-' := by
  intro c mem
  rcases number?_cases accepted with radix | decimal
  · exact .inl (isWordChar_of_isNameChar (isNameChar_of_radix? radix c mem))
  · obtain ⟨mantissa, rest, e, rfl, -, plain, exponent⟩ := exists_mantissa decimal
    rcases List.mem_append.mp mem with mem | mem
    · exact .inl (isWordChar_of_mantissa (plain c mem))
    · exact exponent?_chars exponent c mem

theorem isNameStart_eq_false_of_isDigit {c : Char} (digit : c.isDigit = true) :
    isNameStart c = false := by
  have codes := isDigit_iff.mp digit
  by_contra start
  rw [Bool.not_eq_false, isNameStart_eq, Bool.or_eq_true, Bool.or_eq_true, beq_iff_eq] at start
  rcases start with (upper | lower) | rfl
  · have := isUpper_iff.mp upper
    omega
  · have := isLower_iff.mp lower
    omega
  · exact absurd codes.2 (by decide)

/-- A name does not begin as a mantissa does. -/
theorem isArgumentName_of_mantissa {mantissa : List Char} (nonempty : mantissa ≠ [])
    (plain : ∀ c ∈ mantissa, c.isDigit = true ∨ c = '.') (rest : List Char) :
    isArgumentName (mantissa ++ rest) = false := by
  obtain ⟨c, behind, rfl⟩ := List.exists_cons_of_ne_nil nonempty
  have start : isNameStart c = false := by
    rcases plain c List.mem_cons_self with digit | rfl
    · exact isNameStart_eq_false_of_isDigit digit
    · rfl
  rw [List.cons_append, isArgumentName, start, Bool.false_and]

/-- A name is no literal. -/
theorem number?_of_isArgumentName {text : List Char} (isName : isArgumentName text = true) :
    number? text = none := by
  cases accepted : number? text with
  | none => rfl
  | some value =>
    exfalso
    rcases number?_cases accepted with radix | decimal
    · obtain ⟨letter, digits, base, values, rfl, -⟩ := exists_of_radix? radix
      cases isName
    · obtain ⟨mantissa, rest, e, rfl, nonempty, plain, -⟩ := exists_mantissa decimal
      rw [isArgumentName_of_mantissa nonempty plain] at isName
      cases isName

end Literal

/-! ### Words -/

/-- The code points of the characters of words. -/
theorem toNat_of_isWordChar {c : Char} (word : isWordChar c = true) :
    48 ≤ c.toNat ∧ c.toNat ≤ 57 ∨ 65 ≤ c.toNat ∧ c.toNat ≤ 90 ∨ 97 ≤ c.toNat ∧ c.toNat ≤ 122 ∨
      c.toNat = 95 ∨ c.toNat = 46 := by
  simp only [isWordChar, Literal.isNameChar_eq, Literal.isDigit_iff, Literal.isUpper_iff,
    Literal.isLower_iff, Bool.or_eq_true, beq_iff_eq] at word
  rcases word with (((upper | lower) | digit) | rfl) | rfl
  · exact .inr (.inl upper)
  · exact .inr (.inr (.inl lower))
  · exact .inl digit
  · exact .inr (.inr (.inr (.inl rfl)))
  · exact .inr (.inr (.inr (.inr rfl)))

theorem isBlank_eq_false_of_isWordChar {c : Char} (word : isWordChar c = true) :
    Text.isBlank c = false := by
  have codes := toNat_of_isWordChar word
  simp only [Text.isBlank, Text.blankRanges, List.any_cons, List.any_nil, Bool.or_eq_false_iff,
    Bool.and_eq_false_iff, decide_eq_false_iff_not, and_true]
  refine ⟨?_, ?_, ?_, ?_, ?_, ?_, ?_, ?_, ?_, ?_⟩ <;> omega

theorem isBlank_eq_false_of_number? {text : List Char} {value : Binary64}
    (accepted : Literal.number? text = some value) : ∀ c ∈ text, Text.isBlank c = false := by
  intro c mem
  rcases Literal.number?_chars accepted c mem with word | rfl | rfl
  · exact isBlank_eq_false_of_isWordChar word
  · decide
  · decide

end SelectionFormula
