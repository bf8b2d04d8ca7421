import SelectionFormula.Proofs.Decimal.Coercion
import SelectionFormula.Proofs.Decimal.Integer
import SelectionFormula.Proofs.Reading.RoundTrip
import SelectionFormula.Selection

/-!
Commands and the formulas they stand for.

Adding one to each selection is mapping `x + 1`, taking one away is mapping `x - 1`, and
numbering the selections is mapping `i` (`map_eq_command`). The first two hold of every text,
whatever number it stands for. The last is a statement about number texts: an index is
printed as a natural number, while `i` is printed as the binary64 number nearest to it, so
the indices must stay below `2 ^ 53`.
-/

namespace SelectionFormula

open Binary64

namespace Selection

/-- Mapping a formula whose replacements are known, without a draw, gives these
replacements in order. -/
theorem mapFrom_eq_pure {formula : Formula} {replacement : String → Nat → String} {start : Nat}
    {texts : List String} (applied : ∀ place ∈ texts.zipIdx start,
      formula.apply (coerceNumber place.1) place.2 =
        (pure (replacement place.1 place.2) : Sampled String)) :
    mapFrom formula start texts =
      pure ((texts.zipIdx start).map fun place => replacement place.1 place.2) := by
  induction texts generalizing start with
  | nil => rfl
  | cons text texts ih =>
    rw [List.zipIdx_cons] at applied ⊢
    obtain ⟨first, others⟩ := List.forall_mem_cons.mp applied
    rw [mapFrom, first, pure_bind, ih others, pure_bind, List.map_cons]

/-- Mapping a text that is read as a formula with known replacements. -/
theorem map_eq_pure {source : String} {root : Expr} {replacement : String → Nat → String}
    {texts : List String} (parsed : Formula.parse source = .ok ⟨source, root⟩)
    (applied : ∀ place ∈ texts.zipIdx,
      Formula.apply ⟨source, root⟩ (coerceNumber place.1) place.2 =
        (pure (replacement place.1 place.2) : Sampled String)) :
    map source texts =
      .ok (pure (texts.zipIdx.map fun place => replacement place.1 place.2)) := by
  rw [map, parsed]
  exact congrArg Except.ok (mapFrom_eq_pure applied)

/-- `x` with one more or one less. -/
def stepped (op : BinaryOperator) : Expr :=
  .binary op (.argument "x") (.constant one)

theorem apply_stepped (source : String) (op : BinaryOperator) (x : Binary64) (index : Nat) :
    Formula.apply ⟨source, stepped op⟩ x index = (pure (op.value x one).text : Sampled String) := by
  have name : (Bindings.selection x index).get? "x" = some x := rfl
  rw [Formula.apply, Formula.evaluate, stepped, Expr.evaluate_binary, Expr.evaluate_argument,
    Expr.evaluate_constant, name]
  exact Value.render_number (op.value x one)

theorem apply_index (source : String) (x : Binary64) {index : Nat} (few : index < 2 ^ 53) :
    Formula.apply ⟨source, .argument "i"⟩ x index = (pure (toString index) : Sampled String) := by
  have name : (Bindings.selection x index).get? "i" = some (ofNat index) := rfl
  rw [Formula.apply, Formula.evaluate, Expr.evaluate_argument, name, ← text_ofNat few]
  exact Value.render_number (ofNat index)

/-- `x`, a blank, the operator, a blank and `1`. -/
def steppedChars (op : BinaryOperator) : List Char :=
  ['x', ' '] ++ op.symbol.toList ++ [' ', '1']

theorem read_stepped {op : BinaryOperator} (firm : op.isShift = false) :
    Expr.read (steppedChars op) = .ok (stepped op) := by
  have words : ∀ c ∈ ['x', '1'], isWordChar c = true := by simp [isWordChar, isNameChar]
  have word : ∀ c ∈ ['x', '1'], ∀ c' ∈ [c], isWordChar c' = true := fun c mem =>
    List.forall_mem_singleton.mpr (words c mem)
  have literal : Literal.number? ['1'] = some one := by
    have digits := number?_toDigits 1
    rwa [show Nat.toDigits 10 1 = ['1'] by decide] at digits
  have name : Expr.read ['x'] = .ok (.argument "x") := Expr.read_argument (by decide)
  have unit : Expr.read ['1'] = .ok (.constant one) :=
    Expr.read_constant literal (word '1' (by simp))
  exact Expr.read_spaced firm (Expr.sealed_of_wordChars (by simp) (word 'x' (by simp)))
    (Expr.sealed_of_wordChars (by simp) (word '1' (by simp))) name unit

theorem parse_stepped {op : BinaryOperator} (firm : op.isShift = false) {source : String}
    (chars : source.toList = steppedChars op) : Formula.parse source = .ok ⟨source, stepped op⟩ := by
  rw [Formula.parse, chars, read_stepped firm]

theorem parse_index : Formula.parse "i" = .ok ⟨"i", .argument "i"⟩ := by
  have name : Expr.read ['i'] = .ok (.argument "i") := Expr.read_argument (by decide)
  rw [Formula.parse, show "i".toList = ['i'] from rfl, name]

/-- Mapping a step gives the texts of the stepped numbers. -/
theorem map_stepped {op : BinaryOperator} (firm : op.isShift = false)
    {source : String} (chars : source.toList = steppedChars op) (texts : List String) :
    map source texts = .ok (pure (texts.map fun text => (op.value (coerceNumber text) one).text)) := by
  have all := List.zipIdx_map_fst 0 texts
  rw [@map_eq_pure source _ (fun text _ => (op.value (coerceNumber text) one).text) texts
    (parse_stepped firm chars) fun place _ => apply_stepped source op _ place.2]
  conv_rhs => rw [← all, List.map_map]
  rfl

/-- Mapping `i` gives the texts of the indices. -/
theorem map_index {texts : List String} (few : texts.length < 2 ^ 53) :
    map "i" texts = .ok (pure (index texts.length)) := by
  have all := List.zipIdx_map_snd 0 texts
  rw [@map_eq_pure "i" _ (fun _ place => toString place) texts parse_index fun place mem =>
    apply_index "i" _ ((List.snd_lt_of_mem_zipIdx mem).trans (by omega))]
  rw [index, List.range_eq_range', ← all, List.map_map]
  rfl

/-- Each command gives the texts that its formula gives. -/
theorem map_eq_command {texts : List String} (few : texts.length < 2 ^ 53) :
    map "x + 1" texts = .ok (pure (increment texts)) ∧
    map "x - 1" texts = .ok (pure (decrement texts)) ∧
    map "i" texts = .ok (pure (index texts.length)) :=
  ⟨@map_stepped .plus rfl "x + 1" rfl texts, @map_stepped .minus rfl "x - 1" rfl texts,
    map_index few⟩

/-- A number, a blank text, a negative zero and a text that is no number. -/
theorem map_eq_command_mixed :
    ["41", " ", "-0", "abc"].length < 2 ^ 53 ∧
    map "x + 1" ["41", " ", "-0", "abc"] = .ok (pure ["42", "1", "1", "NaN"]) ∧
    map "x - 1" ["41", " ", "-0", "abc"] = .ok (pure ["40", "-1", "-1", "NaN"]) ∧
    map "i" ["41", " ", "-0", "abc"] = .ok (pure ["0", "1", "2", "3"]) := by
  have few : ["41", " ", "-0", "abc"].length < 2 ^ 53 := by decide
  have raised : increment ["41", " ", "-0", "abc"] = ["42", "1", "1", "NaN"] := by decide +kernel
  have lowered : decrement ["41", " ", "-0", "abc"] = ["40", "-1", "-1", "NaN"] := by
    decide +kernel
  obtain ⟨up, down, numbered⟩ := map_eq_command few
  rw [raised] at up
  rw [lowered] at down
  exact ⟨few, up, down, numbered⟩

end Selection

end SelectionFormula
