import SelectionFormula.Proofs.Decimal.Integer
import SelectionFormula.Proofs.Decimal.Layout
import SelectionFormula.Selection

/-!
Stepping selections that are integers.

Texts stand for integers when their numbers are (`StandFor`), in whatever notation. A step by an
integer adds it to each of them, without rounding as long as no sum is beyond `2 ^ 53`, and writes the
sums in decimal digits (`step_of_standFor`). As these are read back the new texts stand for the sums
(`standFor_step`), which is what the next step needs, and so any number of steps adds up
(`iterate_step`). A step and its opposite leave the integers, now in decimal digits (`step_undo`).
-/

namespace SelectionFormula.Selection

open Binary64

/-- The numbers of texts are integers, place by place. -/
def StandFor (texts : List String) (integers : List Int) : Prop :=
  List.Forall₂ (fun text (i : Int) => (coerceNumber text).toRat? = some (i : Rat)) texts integers

variable {texts : List String} {integers : List Int} {delta delta' : Binary64} {d d' : Int}

/-- The decimal digits of an integer stand for it. -/
theorem toRat?_coerceNumber_toString {i : Int} (few : i.natAbs ≤ 2 ^ 53) :
    (coerceNumber (toString i)).toRat? = some (i : Rat) := by
  have exact := toRat?_ofInt few
  rw [← text_of_integer exact few, coerceNumber, Binary64.text, String.toList_ofList]
  exact toRat?_coerceChars exact

/-- The text that a step puts in the place of one that stands for an integer. -/
theorem text_of_sum {text : String} {i : Int} (stands : (coerceNumber text).toRat? = some (i : Rat))
    (exact : delta.toRat? = some (d : Rat)) (few : (i + d).natAbs ≤ 2 ^ 53) :
    ((coerceNumber text).add delta).text = toString (i + d) := by
  have kept : Representable ((i : Rat) + d) := by
    rw [← Int.cast_add]
    exact representable_intCast few
  have sum := toRat?_add stands exact kept
  rw [← Int.cast_add] at sum
  exact text_of_integer sum few

/-- A step writes the sums. -/
theorem step_of_standFor (exact : delta.toRat? = some (d : Rat)) (stand : StandFor texts integers)
    (few : ∀ i ∈ integers, (i + d).natAbs ≤ 2 ^ 53) :
    step delta texts = integers.map fun i => toString (i + d) := by
  rw [step]
  induction stand with
  | nil => rfl
  | cons stands others ih =>
    obtain ⟨first, few⟩ := List.forall_mem_cons.mp few
    rw [List.map_cons, List.map_cons, text_of_sum stands exact first, ih few]

/-- The texts that a step writes stand for the sums. -/
theorem standFor_step (exact : delta.toRat? = some (d : Rat)) (stand : StandFor texts integers)
    (few : ∀ i ∈ integers, (i + d).natAbs ≤ 2 ^ 53) :
    StandFor (step delta texts) (integers.map (· + d)) := by
  rw [step_of_standFor exact stand few, StandFor, List.forall₂_map_left_iff,
    List.forall₂_map_right_iff, List.forall₂_same]
  exact fun i mem => toRat?_coerceNumber_toString (few i mem)

/-- Steps add up as long as every sum on the way is exact, and what the last one writes is the sums
in decimal digits. -/
theorem iterate_step (exact : delta.toRat? = some (d : Rat)) (stand : StandFor texts integers)
    (k : Nat) (few : ∀ i ∈ integers, ∀ j : Nat, j ≤ k → (i + j * d).natAbs ≤ 2 ^ 53) :
    StandFor ((step delta)^[k] texts) (integers.map (· + k * d)) ∧
      (0 < k → (step delta)^[k] texts = integers.map fun i : Int => toString (i + k * d)) := by
  induction k with
  | zero => exact ⟨by simpa using stand, nofun⟩
  | succ k ih =>
    obtain ⟨sums, -⟩ := ih fun i mem j le => few i mem j (le.trans (Nat.le_succ k))
    have next : ∀ i : Int, i + k * d + d = i + (k + 1 : Nat) * d := fun i => by
      push_cast
      ring
    have few' : ∀ i ∈ integers.map (· + k * d), (i + d).natAbs ≤ 2 ^ 53 := by
      refine List.forall_mem_map.mpr fun i mem => ?_
      rw [next]
      exact few i mem (k + 1) le_rfl
    have written := step_of_standFor exact sums few'
    have stepped := standFor_step exact sums few'
    simp only [List.map_map, Function.comp_def, next] at written stepped
    rw [Function.iterate_succ_apply']
    exact ⟨stepped, fun _ => written⟩

/-- A step by the opposite leaves the integers. -/
theorem step_undo (exact : delta.toRat? = some (d : Rat))
    (opposite : delta'.toRat? = some ((-d : Int) : Rat)) (stand : StandFor texts integers)
    (few : ∀ i ∈ integers, i.natAbs ≤ 2 ^ 53 ∧ (i + d).natAbs ≤ 2 ^ 53) :
    step delta' (step delta texts) = integers.map toString := by
  have back : ∀ i ∈ integers.map (· + d), (i + -d).natAbs ≤ 2 ^ 53 := by
    refine List.forall_mem_map.mpr fun i mem => ?_
    rw [Int.add_neg_cancel_right]
    exact (few i mem).1
  rw [step_of_standFor opposite (standFor_step exact stand fun i mem => (few i mem).2) back,
    List.map_map]
  exact List.map_congr_left fun i _ => congrArg toString (Int.add_neg_cancel_right i d)

theorem increment_eq_step : increment = step (ofInt 1) :=
  rfl

theorem decrement_eq_step : decrement = step (ofInt (-1)) :=
  congrArg step (by decide +kernel)

/-- Texts that stand for integers below `2 ^ 53` in size are taken to the decimal digits of these by a
step up and one down, in either order. Any number of steps up adds that number to the integers, as
long as none of them passes `2 ^ 53` on the way, and the texts are then their decimal digits. -/
theorem steps_lossless (stand : StandFor texts integers)
    (small : ∀ i ∈ integers, i.natAbs < 2 ^ 53) :
    decrement (increment texts) = integers.map toString ∧
    increment (decrement texts) = integers.map toString ∧
    ∀ k : Nat, (∀ i ∈ integers, ∀ j : Nat, j ≤ k → (i + j).natAbs ≤ 2 ^ 53) →
      StandFor (increment^[k] texts) (integers.map (· + k)) ∧
      (0 < k → increment^[k] texts = integers.map fun i : Int => toString (i + k)) := by
  have up := toRat?_ofInt (show (1 : Int).natAbs ≤ 2 ^ 53 by decide)
  have down := toRat?_ofInt (show (-1 : Int).natAbs ≤ 2 ^ 53 by decide)
  rw [increment_eq_step, decrement_eq_step]
  refine ⟨step_undo up down stand fun i mem => ?_, step_undo down up stand fun i mem => ?_,
    fun k few => ?_⟩
  · have := small i mem
    omega
  · have := small i mem
    omega
  · simpa only [Int.mul_one] using
      iterate_step up stand k fun i mem j le => by simpa only [Int.mul_one] using few i mem j le

/-- A blank text, a negative zero, a radix literal, a trailing point, and the integer that three steps
take to `2 ^ 53`. -/
theorem steps_lossless_notations :
    StandFor ["", "-0", " 0x1F", "-12.", "9007199254740989"] [0, 0, 31, -12, 9007199254740989] ∧
    (∀ i ∈ [0, 0, 31, -12, 9007199254740989], Int.natAbs i < 2 ^ 53) ∧
    decrement (increment ["", "-0", " 0x1F", "-12.", "9007199254740989"]) =
      ["0", "0", "31", "-12", "9007199254740989"] ∧
    increment (decrement ["", "-0", " 0x1F", "-12.", "9007199254740989"]) =
      ["0", "0", "31", "-12", "9007199254740989"] ∧
    increment^[3] ["", "-0", " 0x1F", "-12.", "9007199254740989"] =
      ["3", "3", "34", "-9", "9007199254740992"] := by
  have stand : StandFor ["", "-0", " 0x1F", "-12.", "9007199254740989"]
      [0, 0, 31, -12, 9007199254740989] :=
    .cons (by decide +kernel) (.cons (by decide +kernel) (.cons (by decide +kernel)
      (.cons (by decide +kernel) (.cons (by decide +kernel) .nil))))
  have small : ∀ i ∈ [0, 0, 31, -12, 9007199254740989], Int.natAbs i < 2 ^ 53 := by decide
  obtain ⟨up, down, more⟩ := steps_lossless stand small
  obtain ⟨-, written⟩ := more 3 (by decide)
  exact ⟨stand, small, up, down, written (by decide)⟩

end SelectionFormula.Selection
