import SelectionFormula.Proofs.Binary64.Exact

/-!
The shortest decimal reads back as the number.

A grid with a step below the unit in the last place has a point in the interval
of a number, and seventeen digits make the step that small (`exists_onGrid?`).
So `shortest` finds a point of the interval (`contains_shortest`), and such a
point is rounded to the number. Shortest decimals are ordered as their numbers are
(`toRat_shortest_lt_iff`).
-/

namespace SelectionFormula

open Binary64 RoundingInterval

/-- A point that a grid yields is in the interval. -/
theorem contains_of_onGrid? {interval : RoundingInterval} {e : Int} {d : Decimal}
    (found : interval.onGrid? e = some d) : interval.contains d.toRat = true ∧ d.exponent = e := by
  unfold onGrid? at found
  dsimp only at found
  split at found
  · next below above =>
    split at found <;> cases found
    · exact ⟨below, rfl⟩
    · exact ⟨above, rfl⟩
  · next below _ =>
    cases found
    exact ⟨below, rfl⟩
  · next _ above =>
    cases found
    exact ⟨above, rfl⟩
  · cases found

/-- The upper neighbour of a number on a grid is taken when only it is inside. -/
theorem onGrid?_of_above {interval : RoundingInterval} {e : Int} {n : Nat}
    (floor : (interval.value / 10 ^ e).floor = n)
    (below : interval.contains (n * 10 ^ e) = false)
    (above : interval.contains ((n + 1) * 10 ^ e) = true) :
    interval.onGrid? e = some ⟨n + 1, e⟩ := by
  have lower : Decimal.toRat ⟨n, e⟩ = n * 10 ^ e := rfl
  have upper : Decimal.toRat ⟨n + 1, e⟩ = (n + 1) * 10 ^ e := by simp [Decimal.toRat]
  simp only [onGrid?, floor, Int.toNat_natCast, lower, upper, below, above]

/-- The lower neighbour of a number on a grid is taken when only it is inside. -/
theorem onGrid?_of_below {interval : RoundingInterval} {e : Int} {n : Nat}
    (floor : (interval.value / 10 ^ e).floor = n)
    (below : interval.contains (n * 10 ^ e) = true)
    (above : interval.contains ((n + 1) * 10 ^ e) = false) :
    interval.onGrid? e = some ⟨n, e⟩ := by
  have lower : Decimal.toRat ⟨n, e⟩ = n * 10 ^ e := rfl
  have upper : Decimal.toRat ⟨n + 1, e⟩ = (n + 1) * 10 ^ e := by simp [Decimal.toRat]
  simp only [onGrid?, floor, Int.toNat_natCast, lower, upper, below, above]

/-- A grid yields a point when one of the two neighbours is inside. -/
theorem isSome_onGrid? {interval : RoundingInterval} {e : Int} {n : Nat}
    (floor : (interval.value / 10 ^ e).floor = n)
    (inside : interval.contains (n * 10 ^ e) = true ∨
      interval.contains ((n + 1) * 10 ^ e) = true) : (interval.onGrid? e).isSome = true := by
  have below : (Decimal.toRat ⟨n, e⟩) = n * 10 ^ e := rfl
  have above : (Decimal.toRat ⟨n + 1, e⟩) = (n + 1) * 10 ^ e := by simp [Decimal.toRat]
  unfold onGrid?
  simp only [floor, Int.toNat_natCast, below, above]
  rcases inside with inside | inside
  · cases other : interval.contains ((n + 1) * 10 ^ e)
    · simp [inside]
    · simp only [inside]
      split <;> rfl
  · cases other : interval.contains (n * 10 ^ e)
    · simp [inside]
    · simp only [inside]
      split <;> rfl

variable {m : Nat} {q : Int}

theorem value_ofParts (m : Nat) (q : Int) : (ofParts m q).value = m * 2 ^ q := rfl

theorem value_pos (positive : 0 < m) : 0 < (ofParts m q).value := by
  have : (0 : Rat) < m := by exact_mod_cast positive
  rw [value_ofParts]
  positivity

theorem contains_of_near {x : Rat} (low : m - gap m q < x / 2 ^ q)
    (high : x / 2 ^ q < m + 1 / 2) : (ofParts m q).contains x = true :=
  contains_ofParts_iff.mpr ⟨low.le, high.le, .inr ⟨low, high⟩⟩

/-- Of the multiples of a step around a number, one is in its interval: the step is less
than the last place, and less than half of it unless the interval is symmetric. -/
theorem near_of_fine (canonical : Canonical m q) {t : Rat} (fine : 10 ^ 16 * t ≤ m) {n : Nat}
    (front : n * t ≤ m) : m - gap m q < n * t ∨ (n + 1) * t < m + 1 / 2 := by
  by_cases close : t < 1 / 2
  · right
    linarith
  · have bits : (m : Rat) + 1 ≤ 2 ^ 53 := by exact_mod_cast canonical.significand_lt
    have half : gap m q = 1 / 2 := by
      refine if_neg fun power => ?_
      have : (m : Rat) = 2 ^ 52 := by exact_mod_cast power.1
      linarith
    rw [half]
    by_cases near : m - 1 / 2 < n * t
    · exact .inl near
    · right
      linarith

/-- Seventeen digits make a grid with a point in the interval. -/
theorem exists_onGrid? (canonical : Canonical m q) (positive : 0 < m) :
    ((ofParts m q).onGrid? (floorLog 10 log10 (ofParts m q).value - 16)).isSome = true := by
  obtain ⟨leading, -⟩ := floorLog_spec isNatLog_log10 (value_pos (q := q) positive)
  generalize floorLog 10 log10 (ofParts m q).value = k at *
  rw [value_ofParts, Nat.cast_ofNat] at leading
  have unit : (0 : Rat) < 2 ^ q := by positivity
  have step : (0 : Rat) < 10 ^ (k - 16) := by positivity
  -- The step in units of the last place: ten to the sixteenth of it are at most the significand.
  obtain ⟨t, t_eq⟩ : ∃ t : Rat, t = 10 ^ (k - 16) / 2 ^ q := ⟨_, rfl⟩
  have t_pos : 0 < t := t_eq ▸ div_pos step unit
  have fine : 10 ^ 16 * t ≤ m := by
    have split : (10 : Rat) ^ k = 10 ^ 16 * 10 ^ (k - 16) := by
      rw [← zpow_natCast, ← zpow_add₀ (by norm_num)]
      congr 1
      omega
    rw [t_eq, ← mul_div_assoc, div_le_iff₀ unit, ← split]
    exact leading
  obtain ⟨n, floor⟩ : ∃ n : Nat, (((ofParts m q).value / 10 ^ (k - 16)).floor : Int) = n := by
    have : 0 ≤ ((ofParts m q).value / 10 ^ (k - 16)).floor :=
      Rat.le_floor_iff.mpr (div_pos (value_pos positive) step).le
    exact ⟨_, (Int.toNat_of_nonneg this).symm⟩
  have scaled : (ofParts m q).value / 10 ^ (k - 16) = m / t := by
    rw [value_ofParts, t_eq]
    field_simp
  have front : n * t ≤ m := by
    have := Rat.floor_le ((ofParts m q).value / 10 ^ (k - 16))
    rw [floor, scaled, le_div_iff₀ t_pos] at this
    exact_mod_cast this
  have behind : m < (n + 1) * t := by
    have := Rat.lt_floor_add_one ((ofParts m q).value / 10 ^ (k - 16))
    rw [floor, scaled, div_lt_iff₀ t_pos] at this
    exact_mod_cast this
  have below : (n * 10 ^ (k - 16)) / 2 ^ q = n * t := by rw [t_eq, mul_div_assoc]
  have above : ((n + 1 : Rat) * 10 ^ (k - 16)) / 2 ^ q = (n + 1) * t := by
    rw [t_eq, mul_div_assoc]
  apply isSome_onGrid? floor
  rcases near_of_fine canonical fine front with low | high
  · left
    apply contains_of_near
    · rwa [below]
    · rw [below]
      linarith
  · right
    apply contains_of_near
    · have := gap_pos m q
      rw [above]
      linarith
    · rwa [above]

/-- The shortest decimal is on the coarsest grid that has a point in the interval. -/
theorem exists_shortest (canonical : Canonical m q) (positive : 0 < m) :
    ∃ n : Nat, (ofParts m q).onGrid? (floorLog 10 log10 (ofParts m q).value - n) =
        some (shortest m q) ∧
      ∀ k < n, (ofParts m q).onGrid? (floorLog 10 log10 (ofParts m q).value - k) = none := by
  have seventeenth := exists_onGrid? canonical positive
  unfold shortest
  dsimp only
  generalize found : (List.range 17).findSome? (fun n : Nat =>
    (ofParts m q).onGrid? (floorLog 10 log10 (ofParts m q).value - n)) = d
  cases d with
  | none =>
    have none := List.findSome?_eq_none_iff.mp found 16 (by decide)
    rw [show ((16 : Nat) : Int) = 16 from rfl] at none
    rw [none] at seventeenth
    cases seventeenth
  | some d =>
    obtain ⟨coarser, n, finer, split, here, skipped⟩ := List.findSome?_eq_some_iff.mp found
    refine ⟨n, here, fun k less => skipped k ?_⟩
    -- The grids are tried in order, so a coarser one than the `n`-th stands in front of it.
    have sorted := List.pairwise_lt_range (n := 17)
    have inside : k ∈ List.range 17 := by
      have : n ∈ List.range 17 := by simp [split]
      rw [List.mem_range] at this ⊢
      omega
    rw [split] at sorted inside
    rcases List.mem_append.mp inside with front | behind
    · exact front
    · rcases List.mem_cons.mp behind with rfl | behind
      · exact absurd less (Nat.lt_irrefl _)
      · have := (List.pairwise_cons.mp (List.pairwise_append.mp sorted).2.1).1 k behind
        omega

/-- The shortest decimal is in the interval. -/
theorem contains_shortest (canonical : Canonical m q) (positive : 0 < m) :
    (ofParts m q).contains (shortest m q).toRat = true := by
  obtain ⟨n, found, -⟩ := exists_shortest canonical positive
  exact (contains_of_onGrid? found).1

/-- Greater numbers have greater shortest decimals: their intervals meet at most at an end, and
what is there is rounded to one of the two. -/
theorem toRat_shortest_lt (canonical : Canonical m q) (positive : 0 < m) {n : Nat} {r : Int}
    (canonical' : Canonical n r) (less : (m : Rat) * 2 ^ q < n * 2 ^ r) :
    (shortest m q).toRat < (shortest n r).toRat := by
  have unit : (0 : Rat) < 2 ^ q := by positivity
  have unit' : (0 : Rat) < 2 ^ r := by positivity
  have positive' : 0 < n := by
    have size : (0 : Rat) < m * 2 ^ q := mul_pos (by exact_mod_cast positive) unit
    exact_mod_cast pos_of_mul_pos_left (size.trans less) unit'.le
  have inside := contains_shortest canonical positive
  have inside' := contains_shortest canonical' positive'
  obtain ⟨-, high, -⟩ := contains_ofParts_iff.mp inside
  obtain ⟨low, -, -⟩ := contains_ofParts_iff.mp inside'
  rw [div_le_iff₀ unit] at high
  rw [le_div_iff₀ unit'] at low
  have le := high.trans ((intervals_apart canonical canonical' less).trans low)
  refine lt_of_le_of_ne le fun same => ?_
  have rounded := ofRat_of_contains canonical positive inside
  rw [same, ofRat_of_contains canonical' positive' inside'] at rounded
  cases rounded
  exact lt_irrefl _ less

/-- Shortest decimals are ordered as their numbers are. -/
theorem toRat_shortest_lt_iff (canonical : Canonical m q) (positive : 0 < m) {n : Nat} {r : Int}
    (canonical' : Canonical n r) (positive' : 0 < n) :
    (shortest m q).toRat < (shortest n r).toRat ↔ (m : Rat) * 2 ^ q < n * 2 ^ r := by
  refine ⟨fun less => ?_, toRat_shortest_lt canonical positive canonical'⟩
  by_contra not_less
  rcases lt_or_eq_of_le (not_lt.mp not_less) with greater | same
  · exact lt_asymm less (toRat_shortest_lt canonical' positive' canonical greater)
  · obtain ⟨rfl, rfl⟩ := canonical_unique canonical' canonical
      (by simpa [signedRat] using same)
    exact lt_irrefl _ less

end SelectionFormula
