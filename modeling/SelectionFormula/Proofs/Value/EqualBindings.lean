import SelectionFormula.Proofs.Decimal.Coercion
import SelectionFormula.Proofs.Reading.RoundTrip
import SelectionFormula.Proofs.Value.Alike

/-!
Equal bindings and equal texts.

Bindings are equal when their numbers compare as the same, whatever the order of the extra
names. They then bind every name to alike numbers (`Bindings.get?_alike`), so a formula that
does not draw renders one text, unless its evaluation comes to a node that tells zeros apart
(`Formula.render_of_sameBindings`). A name may stand for zeros of different signs, and there are
such nodes: `i / x` is infinite with the sign of `x` (`Formula.texts_differ_at_zeros`).
-/

namespace SelectionFormula

open Binary64

/-! ### Names -/

namespace Bindings

variable {a b : Bindings}

theorem extra?_eq_none_iff (bindings : Bindings) (name : String) :
    bindings.extra? name = none ↔ name ∉ bindings.extra.map (·.1) := by
  rw [extra?, List.lookup_eq_none_iff]
  constructor
  · intro other mem
    obtain ⟨entry, inside, rfl⟩ := List.mem_map.mp mem
    exact absurd rfl (bne_iff_ne.mp (other entry inside))
  · intro absent entry inside
    exact bne_iff_ne.mpr fun eq => absent (List.mem_map.mpr ⟨entry, inside, eq.symm⟩)

theorem mem_extra_of_extra? {bindings : Bindings} {name : String} {value : Binary64}
    (found : bindings.extra? name = some value) : (name, value) ∈ bindings.extra := by
  obtain ⟨front, back, split, -⟩ := List.lookup_eq_some_iff.mp found
  rw [split]
  exact List.mem_append_right _ List.mem_cons_self

/-- As many extra names, each found among the others with the same number: the extra names are
the same. -/
theorem extra?_alike (length : a.extra.length = b.extra.length)
    (found : ∀ entry ∈ a.extra, (b.extra? entry.1).any entry.2.sameNumber = true) (name : String) :
    Option.Rel Alike (a.extra? name) (b.extra? name) := by
  cases at_a : a.extra? name with
  | some value =>
    obtain ⟨value', at_b, same⟩ :=
      (Option.any_eq_true _ _).mp (found _ (mem_extra_of_extra? at_a))
    rw [at_b]
    exact .some (alike_of_sameNumber same)
  | none =>
    have subset : a.extra.map (·.1) ⊆ b.extra.map (·.1) := by
      intro other mem
      obtain ⟨entry, inside, rfl⟩ := List.mem_map.mp mem
      by_contra absent
      have here := found entry inside
      rw [(extra?_eq_none_iff b _).mpr absent] at here
      cases here
    -- No name of the first is repeated, so as many names are all the names.
    have perm := (a.extra_nodup.subperm subset).perm_of_length_le (by simp [length])
    have absent : name ∉ b.extra.map (·.1) := by
      rw [← perm.mem_iff]
      exact (extra?_eq_none_iff a name).mp at_a
    rw [(extra?_eq_none_iff b name).mpr absent]
    exact .none

/-- Equal bindings bind the same names, each to alike numbers. -/
theorem get?_alike (same : a.sameBindings b = true) (name : String) :
    Option.Rel Alike (a.get? name) (b.get? name) := by
  simp only [sameBindings, Bool.and_eq_true, beq_iff_eq, List.all_eq_true] at same
  obtain ⟨⟨⟨x, i⟩, length⟩, found⟩ := same
  have extra := extra?_alike length found name
  unfold get?
  generalize a.extra? name = left, b.extra? name = right at extra
  cases extra with
  | some alike => exact .some alike
  | none =>
    dsimp only
    split
    · exact .some (alike_of_sameNumber x)
    · split
      · exact .some (alike_of_sameNumber i)
      · cases mathConstants.lookup name with
        | none => exact .none
        | some value => exact .some (.refl value)

end Bindings

/-! ### Formulas -/

namespace Formula

/-- Under equal bindings a formula that does not draw renders one text, if evaluation comes to
no node that tells the zeros of the two apart. -/
theorem render_of_sameBindings {formula : Formula} (calm : formula.isDeterministic = true)
    {a b : Bindings} (same : a.sameBindings b = true)
    (kept : ¬ formula.root.RenderVisits a (Expr.TellsZeros a b)) :
    ∃ text, (do (← formula.evaluate a).render) = (pure text : Sampled String) ∧
      (do (← formula.evaluate b).render) = (pure text : Sampled String) := by
  have calm : formula.root.callsRandom = false := by simpa [isDeterministic] using calm
  exact Expr.render_alike (Bindings.get?_alike same) calm kept

/-- A quotient that is not taken at zero, beside a power that does not tell zeros apart. -/
def guardedQuotient : Formula :=
  ⟨"x ? i / x : v ** i", .conditional (.argument "x")
    (.binary .divide (.argument "i") (.argument "x"))
    (.binary .power (.argument "v") (.argument "i"))⟩

def positiveZeros : Bindings :=
  ((Bindings.selection (zero false) 2).insert "u" one).insert "v" (zero false)

/-- The negative zeros, the extra names in the other order. -/
def negativeZeros : Bindings :=
  ((Bindings.selection (zero true) 2).insert "v" (zero true)).insert "u" one

theorem render_of_sameBindings_guardedQuotient :
    guardedQuotient.isDeterministic = true ∧ positiveZeros.sameBindings negativeZeros = true ∧
      (¬ guardedQuotient.root.RenderVisits positiveZeros
        (Expr.TellsZeros positiveZeros negativeZeros)) ∧
      ∃ text, (do (← guardedQuotient.evaluate positiveZeros).render) = (pure text : Sampled String) ∧
        (do (← guardedQuotient.evaluate negativeZeros).render) = (pure text : Sampled String) := by
  have same : positiveZeros.sameBindings negativeZeros = true := by decide +kernel
  have number : positiveZeros.get? "x" = some (zero false) := by decide +kernel
  have index : positiveZeros.get? "i" = some (ofNat 2) := by decide +kernel
  refine ⟨rfl, same, ?kept, render_of_sameBindings rfl same ?kept⟩
  intro visited
  cases visited with
  | evaluated visited =>
    cases visited with
    | here told => cases told
    | condition visited => cases visited with | here told => cases told
    | yes truthy _ =>
      obtain ⟨x, evaluated, truthy⟩ := truthy
      rw [Expr.evaluate_argument, number] at evaluated
      cases eq_of_pure_eq evaluated
      cases truthy
    | no _ visited =>
      cases visited with
      | left visited => cases visited with | here told => cases told
      | right visited => cases visited with | here told => cases told
      | here told =>
        cases told with
        | power _ odd =>
          obtain ⟨y, evaluated, odd⟩ := odd
          rw [Expr.evaluate_argument, index] at evaluated
          cases eq_of_pure_eq evaluated
          exact absurd odd (by decide +kernel)
  | element evaluated =>
    -- The value is a power, no array.
    have taken : guardedQuotient.root.evaluate positiveZeros =
        (Expr.binary .power (.argument "v") (.argument "i")).evaluate positiveZeros := by
      rw [guardedQuotient, Expr.evaluate_conditional, Expr.evaluate_argument, number]
      rfl
    rw [taken, Expr.evaluate_binary, Expr.evaluate_argument, Expr.evaluate_argument, pure_bind,
      pure_bind] at evaluated
    have value := eq_of_pure_eq evaluated
    generalize positiveZeros.get? "v" = v?, positiveZeros.get? "i" = i? at value
    cases v? <;> cases i? <;> cases value

/-- The index over the number. -/
def indexOverNumber : Formula :=
  ⟨"i / x", .binary .divide (.argument "i") (.argument "x")⟩

theorem parse_indexOverNumber : Formula.parse "i / x" = .ok indexOverNumber := by
  have index : Expr.read ['i'] = .ok (.argument "i") := Expr.read_argument (by decide)
  have number : Expr.read ['x'] = .ok (.argument "x") := Expr.read_argument (by decide)
  have words : ∀ c ∈ ['i', 'x'], ∀ c' ∈ [c], isWordChar c' = true := by
    simp [isWordChar, isNameChar]
  have tree := @Expr.read_spaced .divide rfl _ _ _ _
    (Expr.sealed_of_wordChars (by simp) (words 'i' (by simp)))
    (Expr.sealed_of_wordChars (by simp) (words 'x' (by simp))) index number
  have chars : "i / x".toList = ['i'] ++ ' ' :: BinaryOperator.divide.symbol.toList ++ ' ' :: ['x'] :=
    by decide
  rw [Formula.parse, chars, tree]
  rfl

theorem render_indexOverNumber (x : Binary64) :
    (do (← indexOverNumber.evaluate (.selection x 1)).render) =
      (pure (one.div x).text : Sampled String) := by
  have index : (Bindings.selection x 1).get? "i" = some one := rfl
  have number : (Bindings.selection x 1).get? "x" = some x := rfl
  rw [evaluate, indexOverNumber, Expr.evaluate_binary, Expr.evaluate_argument,
    Expr.evaluate_argument, index, number]
  exact Value.render_number (one.div x)

/-- A quotient by zero has two texts under equal bindings. -/
theorem texts_differ_at_zeros :
    ¬ ∀ text formula, Formula.parse text = .ok formula → formula.isDeterministic = true →
      ∀ a b : Bindings, a.sameBindings b = true →
        (do (← formula.evaluate a).render) = ((do (← formula.evaluate b).render) : Sampled String) := by
  intro same
  have texts := same _ _ parse_indexOverNumber rfl (.selection (zero false) 1) (.selection (zero true) 1)
    (by decide +kernel)
  rw [render_indexOverNumber, render_indexOverNumber] at texts
  exact absurd (eq_of_pure_eq texts) (by decide +kernel)

end Formula

end SelectionFormula
