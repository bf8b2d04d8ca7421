/-!
The nearest integer to a rational, a half going to the even neighbour.
-/

namespace SelectionFormula

/-- Nearest integer; exactly between two, the even one. -/
def nearestInt (x : Rat) : Int :=
  let low := x.floor
  let rest := x - low
  if rest < 1 / 2 then low
  else if 1 / 2 < rest then low + 1
  else low + low % 2

theorem floor_le_nearestInt (x : Rat) : x.floor ≤ nearestInt x := by
  simp only [nearestInt]
  split
  · exact Int.le_refl _
  · split <;> omega

theorem nearestInt_le_floor_add_one (x : Rat) : nearestInt x ≤ x.floor + 1 := by
  simp only [nearestInt]
  split
  · omega
  · split <;> omega

/-- Rounding cannot pass an integer from above. -/
theorem le_nearestInt {n : Int} {x : Rat} (le : (n : Rat) ≤ x) : n ≤ nearestInt x :=
  Int.le_trans (Rat.le_floor_iff.mpr le) (floor_le_nearestInt x)

/-- Rounding cannot pass an integer from below. -/
theorem nearestInt_le {n : Int} {x : Rat} (lt : x < (n : Rat)) : nearestInt x ≤ n := by
  have := Rat.floor_lt_iff.mpr lt
  have := nearestInt_le_floor_add_one x
  omega

/-- An integer is its own nearest integer. -/
@[simp] theorem nearestInt_intCast (n : Int) : nearestInt (n : Rat) = n := by
  have pos : (0 : Rat) < 1 / 2 := by grind
  simp only [nearestInt, Rat.floor_intCast, Rat.sub_self, if_pos pos]

end SelectionFormula
