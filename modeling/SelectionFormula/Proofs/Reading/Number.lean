import SelectionFormula.Proofs.Decimal.ReadBack
import SelectionFormula.Proofs.Reading.Outside

/-!
Number literals as formulas.

The levels of the operators are tried before a text is taken for a literal, and the sign of an
exponent is an operator to them. So a literal without a sign is read as its number, and one with
a sign is cut there: what is left of the sign ends with the letter of the exponent, which no
literal does (`number?_dangling`), and the text is rejected.

* `exists_of_signed` — a literal with a sign is a mantissa, the letter of an exponent, the sign
  and digits.
* `read_of_number?` — what a literal is read as.
-/

namespace SelectionFormula

open Text

namespace Literal

variable {text mantissa : List Char} {value : Binary64} {letter : Char}

/-- A decimal literal ends with a digit or a point. -/
theorem decimal?_last (accepted : decimal? text = some value) :
    ∀ c ∈ text.getLast?, c.isDigit = true ∨ c = '.' := by
  intro c last
  obtain ⟨mantissa, rest, e, rfl, nonempty, plain, exponent⟩ := exists_mantissa accepted
  rcases exists_of_exponent? exponent with rfl | ⟨letter, sign, digits, rfl, -, -, some_digit, all⟩
  · rw [List.append_nil] at last
    exact plain c (List.mem_of_getLast? last)
  · rw [← List.append_assoc, List.getLast?_append_of_ne_nil _ some_digit] at last
    exact .inl (all c (List.mem_of_getLast? last))

/-- A literal with a sign in it is a mantissa, the letter of an exponent, the sign and digits. -/
theorem exists_of_signed (accepted : number? text = some value)
    (signed : '+' ∈ text ∨ '-' ∈ text) :
    ∃ mantissa letter sign digits, text = mantissa ++ [letter] ++ [sign] ++ digits ∧
      mantissa ≠ [] ∧ (∀ c ∈ mantissa, c.isDigit = true ∨ c = '.') ∧
      (letter = 'e' ∨ letter = 'E') ∧ (sign = '+' ∨ sign = '-') ∧
      digits ≠ [] ∧ AllDigits digits := by
  obtain ⟨c, mem, is_sign⟩ : ∃ c ∈ text, c = '+' ∨ c = '-' := by
    rcases signed with mem | mem
    · exact ⟨_, mem, .inl rfl⟩
    · exact ⟨_, mem, .inr rfl⟩
  have not_digit : ¬ c.isDigit = true := by rcases is_sign with rfl | rfl <;> decide
  rcases number?_cases accepted with radix | decimal
  · have name := isNameChar_of_radix? radix c mem
    rcases is_sign with rfl | rfl <;> exact absurd name (by decide)
  obtain ⟨mantissa, rest, e, rfl, nonempty, plain, exponent⟩ := exists_mantissa decimal
  have behind : c ∈ rest := by
    refine (List.mem_append.mp mem).resolve_left fun inside => ?_
    rcases plain c inside with digit | rfl
    · exact not_digit digit
    · rcases is_sign with ⟨⟨⟩⟩ | ⟨⟨⟩⟩
  rcases exists_of_exponent? exponent with
    rfl | ⟨letter, sign, digits, rfl, exponential, one, some_digit, all⟩
  · cases behind
  rcases one with rfl | rfl | rfl
  · exfalso
    rcases List.mem_cons.mp behind with rfl | inside
    · rcases exponential with rfl | rfl <;> rcases is_sign with ⟨⟨⟩⟩ | ⟨⟨⟩⟩
    · exact not_digit (all c inside)
  · exact ⟨mantissa, letter, '+', digits, by simp, nonempty, plain, exponential, .inl rfl,
      some_digit, all⟩
  · exact ⟨mantissa, letter, '-', digits, by simp, nonempty, plain, exponential, .inr rfl,
      some_digit, all⟩

/-- A mantissa and the letter of an exponent are no literal. -/
theorem number?_dangling (plain : ∀ c ∈ mantissa, c.isDigit = true ∨ c = '.')
    (exponential : letter = 'e' ∨ letter = 'E') : number? (mantissa ++ [letter]) = none := by
  have radix : radix? (mantissa ++ [letter]) = none := by
    refine radix?_eq_none_of_letters (List.forall_mem_append.mpr ⟨?_, ?_⟩)
    · exact fun c mem => radixOf?_of_plain (plain c mem)
    · rcases exponential with rfl | rfl <;> simp [radixOf?]
  have decimal : decimal? (mantissa ++ [letter]) = none := by
    cases accepted : decimal? (mantissa ++ [letter]) with
    | none => rfl
    | some value =>
      have last := decimal?_last accepted letter (by simp)
      rcases exponential with rfl | rfl <;> exact absurd last (by decide)
  rw [number?_of_radix?_eq_none radix, decimal]

end Literal

namespace Expr

variable {text mantissa digits : List Char} {value : Binary64} {letter : Char}

/-- A mantissa and the letter of an exponent are rejected as a whole. -/
theorem read_dangling (nonempty : mantissa ≠ [])
    (plain : ∀ c ∈ mantissa, c.isDigit = true ∨ c = '.')
    (exponential : letter = 'e' ∨ letter = 'E') :
    (∀ c ∈ mantissa ++ [letter], isWordChar c = true) ∧
      read (mantissa ++ [letter]) = reject .unparsableToken 0 := by
  have words : ∀ c ∈ mantissa ++ [letter], isWordChar c = true := by
    refine List.forall_mem_append.mpr ⟨?_, ?_⟩
    · exact fun c mem => Literal.isWordChar_of_mantissa (plain c mem)
    · rw [List.forall_mem_singleton]
      rcases exponential with rfl | rfl <;> rfl
  have other : ¬ isArgumentName (mantissa ++ [letter]) = true := by
    rw [Literal.isArgumentName_of_mantissa nonempty plain]
    exact Bool.false_ne_true
  refine ⟨words, ?_⟩
  rw [read_of_wordChars (by simp) words, Form.atom, if_neg other,
    Literal.number?_dangling plain exponential]

/-- A literal with a signed exponent is cut at the sign, and what is in front of it rejected. -/
theorem read_signed {sign : Char} (nonempty : mantissa ≠ [])
    (plain : ∀ c ∈ mantissa, c.isDigit = true ∨ c = '.')
    (exponential : letter = 'e' ∨ letter = 'E') (is_sign : sign = '+' ∨ sign = '-')
    (some_digit : digits ≠ []) (all : Literal.AllDigits digits) :
    read (mantissa ++ [letter] ++ [sign] ++ digits) = reject .unparsableToken 0 := by
  obtain ⟨op, symbol, firm, other⟩ : ∃ op : BinaryOperator, op.symbol.toList = [sign] ∧
      op.isShift = false ∧ op ≠ .times := by
    rcases is_sign with rfl | rfl
    · exact ⟨.plus, rfl, rfl, nofun⟩
    · exact ⟨.minus, rfl, rfl, nofun⟩
  obtain ⟨words, rejected⟩ := read_dangling nonempty plain exponential
  have words' : ∀ c ∈ digits, isWordChar c = true := fun c mem => isWordChar_of_isDigit (all c mem)
  have front : Unsplit (mantissa ++ [letter]) :=
    .of_wordChars words fun _ => isOperatorChar_eq_false_of_isWordChar
  have behind : Unsplit digits :=
    .of_wordChars words' fun _ => isOperatorChar_eq_false_of_isWordChar
  have nonblank : trim digits ≠ [] := by
    rw [trim_eq_self (sealed_of_wordChars some_digit words').trimmed]
    exact some_digit
  rw [← symbol, read_between firm other front behind nonblank, readBinary, rejected]
  rfl

/-- A literal is read as its number, unless its exponent has a sign. -/
theorem read_of_number? (literal : Literal.number? text = some value) :
    read text = if '+' ∈ text ∨ '-' ∈ text then reject .unparsableToken 0
      else .ok (.constant value) := by
  split
  · next signed =>
    obtain ⟨mantissa, letter, sign, digits, rfl, nonempty, plain, exponential, is_sign, some_digit,
      all⟩ := Literal.exists_of_signed literal signed
    exact read_signed nonempty plain exponential is_sign some_digit all
  · next unsigned =>
    refine read_constant literal fun c mem => ?_
    rcases Literal.number?_chars literal c mem with word | rfl | rfl
    · exact word
    · exact absurd (.inl mem) unsigned
    · exact absurd (.inr mem) unsigned

end Expr

/-- A literal is a formula of its number, unless its exponent has a sign: then the whole text is
rejected, since the levels of `+` and `-` come before the literal. -/
theorem Formula.parse_of_number? {text : String} {value : Binary64}
    (literal : Literal.number? text.toList = some value) :
    Formula.parse text = if '+' ∈ text.toList ∨ '-' ∈ text.toList then
      .error ⟨.unparsableToken, 0⟩ else .ok ⟨text, .constant value⟩ := by
  rw [parse, Expr.read_of_number? literal]
  by_cases signed : '+' ∈ text.toList ∨ '-' ∈ text.toList
  · rw [if_pos signed, if_pos signed]
    simp only [reject, Stop.rejectionIn, charsBefore]
  · rw [if_neg signed, if_neg signed]

/-- A literal whose exponent has no sign, and one whose exponent has. -/
theorem Formula.parse_of_number?_samples :
    Formula.parse ".5E3" = .ok ⟨".5E3", .constant (Literal.nearestDecimal 5 2)⟩ ∧
      Formula.parse "2.5E-4" = .error ⟨.unparsableToken, 0⟩ := by
  have unsigned : Literal.number? ".5E3".toList = some (Literal.nearestDecimal 5 2) := rfl
  have signed : Literal.number? "2.5E-4".toList = some (Literal.nearestDecimal 25 (-5)) := rfl
  constructor
  · rw [parse_of_number? unsigned, if_neg (by decide)]
  · rw [parse_of_number? signed, if_pos (by decide)]

/-- Not every literal is a formula of its number: `2.5E-4` is none. -/
theorem Formula.parse_signed_exponent : ¬ ∀ (text : String) (value : Binary64),
    Literal.number? text.toList = some value →
    ∃ formula, Formula.parse text = .ok formula ∧ formula.root = .constant value := by
  intro usable
  have literal : Literal.number? "2.5E-4".toList = some (Literal.nearestDecimal 25 (-5)) := rfl
  obtain ⟨formula, accepted, -⟩ := usable "2.5E-4" _ literal
  have rejected : Formula.parse "2.5E-4" = .error ⟨.unparsableToken, 0⟩ := by cbv
  rw [rejected] at accepted
  cases accepted

end SelectionFormula
