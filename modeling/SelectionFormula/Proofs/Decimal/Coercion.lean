import SelectionFormula.Decimal.Coercion
import SelectionFormula.Proofs.Decimal.ReadBack
import SelectionFormula.Proofs.Text.Trim
import SelectionFormula.Value.Plain

/-!
The text of a number stands for that number.

A replacement text becomes a selection's text, and the number it stands for is the one that
was written (`coerceNumber_render`); only the sign of a zero is lost. The digits of a finite
number are a decimal literal wherever its point stands, so this rests on reading such a
literal (`decimal?_layout`) and on what coercion makes of one behind a minus sign
(`coerceChars_decimal`).
-/

namespace SelectionFormula

open Binary64 Literal

/-- A decimal literal is coerced to its value, and behind a minus sign to the negated one. -/
theorem coerceChars_decimal {text : List Char} {value : Binary64}
    (digit : ∃ c ∈ text.head?, c.isDigit = true) (plain : radix? text = none)
    (decimal : decimal? text = some value) (negative : Bool) :
    coerceChars (if negative then '-' :: text else text) =
      if negative then value.neg else value := by
  have literal : number? text = some value := (number?_of_radix?_eq_none plain).trans decimal
  have firm := isBlank_eq_false_of_number? literal
  obtain ⟨c, head, digit⟩ := digit
  obtain ⟨rest, rfl⟩ : ∃ rest, text = c :: rest := List.head?_eq_some_iff.mp head
  have word : c :: rest ≠ "Infinity".toList := by
    intro same
    obtain rfl : c = 'I' := (List.cons.inj same).1
    cases digit
  have magnitude : coercedMagnitude? (c :: rest) = some value := by
    rw [coercedMagnitude?, if_neg word, plain]
    exact literal
  cases negative with
  | true =>
    have trimmed : Text.Trimmed ('-' :: c :: rest) := by
      have all : ∀ d ∈ '-' :: c :: rest, Text.isBlank d = false :=
        List.forall_mem_cons.mpr ⟨by decide, firm⟩
      exact ⟨fun d mem => all d (List.mem_of_mem_head? mem),
        fun d mem => all d (List.mem_of_mem_getLast? mem)⟩
    have signed : radix? ('-' :: c :: rest) = none := by simp [radix?]
    simp [coerceChars, Text.trim_eq_self trimmed, signed, splitSign, magnitude]
  | false =>
    have trimmed : Text.Trimmed (c :: rest) :=
      ⟨fun d mem => firm d (List.mem_of_mem_head? mem),
        fun d mem => firm d (List.mem_of_mem_getLast? mem)⟩
    have unsigned : splitSign (c :: rest) = (false, c :: rest) := by
      unfold splitSign
      split
      · next same => cases same; cases digit
      · next same => cases same; cases digit
      · rfl
    simp [coerceChars, Text.trim_eq_self trimmed, plain, unsigned, magnitude]

/-- The text of a number other than zero begins, behind its sign, with a digit. -/
theorem head?_layout {digits : List Char} (all : AllDigits digits) (some_digit : digits ≠ [])
    (point : Int) : ∃ c ∈ (layout digits point).head?, c.isDigit = true := by
  obtain ⟨first, later, rfl⟩ := List.exists_cons_of_ne_nil some_digit
  have head : first.isDigit = true := all first List.mem_cons_self
  unfold layout
  split
  · exact ⟨first, rfl, head⟩
  · split
    · next inside =>
      obtain ⟨k, places⟩ : ∃ k : Nat, point.toNat = k + 1 := ⟨point.toNat - 1, by omega⟩
      rw [places]
      exact ⟨first, rfl, head⟩
    · split
      · exact ⟨'0', rfl, rfl⟩
      · cases later <;> exact ⟨first, by simp, head⟩

/-- What is written for a finite number other than zero stands for it. -/
theorem coerceChars_chars_finite (negative : Bool) {m : Nat} {q : Int} (canonical : Canonical m q)
    (positive : 0 < m) : coerceChars (Binary64.finite negative m q canonical).chars =
      .finite negative m q canonical := by
  have digits := digits_shortest_pos canonical positive
  have all := allDigits_significantDigits (shortest m q)
  have some_digit := significantDigits_ne_nil digits
  have decimal := decimal?_layout all some_digit (shortest m q).pointPosition
  rw [← toRat_eq_significantDigits,
    ofRat_of_contains canonical positive (contains_shortest canonical positive)] at decimal
  rw [chars_finite negative canonical positive,
    coerceChars_decimal (head?_layout all some_digit _) (radix?_layout all _) decimal]
  cases negative <;> rfl

theorem Value.render_number (x : Binary64) :
    (Value.number x).render = (pure x.text : Sampled String) := by
  rw [Value.render, Value.force_number, pure_bind]
  simp [Plain.text, Plain.chars, Binary64.text]

/-- A number's text stands for that number, and that of either zero for the positive zero. -/
theorem coerceNumber_render (x : Binary64) : ∃ text : String,
    (Value.number x).render = (pure text : Sampled String) ∧
      coerceNumber text = if x.isZero then .zero false else x := by
  refine ⟨x.text, Value.render_number x, ?_⟩
  rw [coerceNumber, Binary64.text, String.toList_ofList]
  cases x with
  | nan => decide
  | infinite negative => cases negative <;> decide
  | finite negative m q canonical =>
    by_cases zero : m = 0
    · subst zero
      have read : coerceChars ['0'] = .zero false := by decide
      exact read
    · have nonzero : (Binary64.finite negative m q canonical).isZero = false := by simp [isZero, zero]
      rw [nonzero, coerceChars_chars_finite negative canonical (Nat.pos_of_ne_zero zero)]
      rfl

end SelectionFormula
