import SelectionFormula.Proofs.Binary64.SignedZero
import SelectionFormula.Proofs.Value.Eager

/-!
The greatest and the least of numbers.

`Precedes` extends the numeric order by placing the negative zero below the positive one, so of two
different numbers one precedes the other (`Precedes.total`). The two tests that look for a better
number ask for the signs of zeros in ways of their own, and both agree with that order
(`chooses_exceeds`, `chooses_undercuts`). From there on one proof serves both functions. A step of
the loop keeps a number that nothing read so far is behind (`Chooses.step`), so the loop yields the
best element (`Chooses.isBest_extremum`). There is one (`IsBest.unique`), it does not depend on the
order of the list (`IsBest.perm`), and the best of the best elements of blocks is the best of all
(`IsBest.flatMap`). That gives both functions at once, however their calls are nested
(`max_min_takeLast`).
-/

namespace SelectionFormula

namespace Binary64

/-! ### The order that tells the zeros apart -/

section Order

variable {x y z : Binary64}

theorem isNaN_iff : x.isNaN = true ↔ x = .nan := by
  cases x <;> simp [isNaN]

theorem lt_self (x : Binary64) : x.lt x = false := by
  cases x with
  | nan => rfl
  | infinite negative => cases negative <;> rfl
  | finite negative m q canonical => simp [lt]

theorem lt_through (first : x.lt y = true) (second : y.lt z = true) : x.lt z = true := by
  cases x <;> cases y <;> cases z <;> simp_all [lt]
  exact first.trans second

/-- Numbers are in order, or they compare as the same. -/
theorem lt_or_same_or_lt (hx : x.isNaN = false) (hy : y.isNaN = false) :
    x.lt y = true ∨ x.sameNumber y = true ∨ y.lt x = true := by
  cases x with
  | nan => cases hx
  | infinite s =>
    cases y with
    | nan => cases hy
    | infinite t => cases s <;> cases t <;> decide
    | finite t n r canonical => cases s <;> simp [lt]
  | finite s m q canonical =>
    cases y with
    | nan => cases hy
    | infinite t => cases t <;> simp [lt]
    | finite t n r canonical' =>
      simpa [lt, sameNumber] using lt_trichotomy (signedRat s m q) (signedRat t n r)

/-- Below, or the negative zero below the positive one. -/
def Precedes (x y : Binary64) : Prop :=
  x.lt y = true ∨ x = zero true ∧ y = zero false

theorem Precedes.irrefl (x : Binary64) : ¬ Precedes x x := by
  rintro (less | ⟨rfl, same⟩)
  · rw [lt_self] at less
    cases less
  · cases same

theorem Precedes.trans (first : Precedes x y) (second : Precedes y z) : Precedes x z := by
  rcases first with less | ⟨rfl, rfl⟩
  · rcases second with less' | ⟨rfl, rfl⟩
    · exact .inl (lt_through less less')
    · exact .inl ((Alike.refl x).lt_eq (.zero true false) ▸ less)
  · rcases second with less' | ⟨same, -⟩
    · exact .inl ((Alike.zero false true).lt_eq (.refl z) ▸ less')
    · cases same

/-- Numbers are in order or equal. -/
theorem Precedes.total (hx : x.isNaN = false) (hy : y.isNaN = false) :
    Precedes x y ∨ x = y ∨ Precedes y x := by
  rcases lt_or_same_or_lt hx hy with less | same | greater
  · exact .inl (.inl less)
  · cases alike_of_sameNumber same with
    | refl => exact .inr (.inl rfl)
    | zero s t =>
      cases s <;> cases t
      · exact .inr (.inl rfl)
      · exact .inr (.inr (.inr ⟨rfl, rfl⟩))
      · exact .inl (.inr ⟨rfl, rfl⟩)
      · exact .inr (.inl rfl)
  · exact .inr (.inr (.inl greater))

/-- No zero is below the negative one. -/
theorem precedes_or_eq_of_zeros (left : x.isZero = true) (right : y.isZero = true)
    (negative : x.isNegative = true) : Precedes x y ∨ x = y := by
  obtain ⟨s, rfl⟩ := eq_zero_of_isZero left
  obtain ⟨t, rfl⟩ := eq_zero_of_isZero right
  obtain rfl : s = true := negative
  cases t
  · exact .inl (.inr ⟨rfl, rfl⟩)
  · exact .inr rfl

/-- All numbers are between the infinite ones. -/
theorem between_infinites (hx : x.isNaN = false) :
    (infinite true = x ∨ Precedes (infinite true) x) ∧
      (infinite false = x ∨ Precedes x (infinite false)) := by
  cases x with
  | nan => cases hx
  | infinite negative => cases negative <;> simp [Precedes, lt]
  | finite negative m q canonical => exact ⟨.inr (.inl rfl), .inr (.inl rfl)⟩

end Order

/-! ### The best of a list -/

/-- An order of the numbers, and a test for the later of two in it. Which of two equal numbers is
taken makes no difference. -/
structure Chooses (better : Binary64 → Binary64 → Bool) (before : Binary64 → Binary64 → Prop) :
    Prop where
  irrefl : ∀ x, ¬ before x x
  trans : ∀ {x y z}, before x y → before y z → before x z
  total : ∀ {x y}, x.isNaN = false → y.isNaN = false → before x y ∨ x = y ∨ before y x
  of_before : ∀ {x best}, before best x → better x best = true
  of_better : ∀ {x best}, better x best = true → before best x ∨ best = x

/-- An element of a list that all others are before. A list with one that is not a number has that
instead, and an empty one a number to start from. -/
inductive IsBest (before : Binary64 → Binary64 → Prop) (start : Binary64) (xs : List Binary64) :
    Binary64 → Prop
  | nan : .nan ∈ xs → IsBest before start xs .nan
  | empty : xs = [] → IsBest before start xs start
  | member {best : Binary64} : .nan ∉ xs → best ∈ xs →
      (∀ x ∈ xs, x = best ∨ before x best) → IsBest before start xs best

theorem chooses_exceeds : Chooses exceeds Precedes where
  irrefl := Precedes.irrefl
  trans := Precedes.trans
  total := Precedes.total
  of_before := by
    rintro x best (less | ⟨rfl, rfl⟩)
    · simp [exceeds, less]
    · exact Bool.or_eq_true_iff.mpr (.inr rfl)
  of_better := by
    intro x best better
    rcases Bool.or_eq_true_iff.mp better with less | zeros
    · exact .inl (.inl less)
    · obtain ⟨zeros, negative⟩ := Bool.and_eq_true_iff.mp zeros
      obtain ⟨left, right⟩ := Bool.and_eq_true_iff.mp zeros
      exact precedes_or_eq_of_zeros right left negative

theorem chooses_undercuts : Chooses undercuts fun x y => Precedes y x where
  irrefl := Precedes.irrefl
  trans := fun first second => second.trans first
  total := fun hx hy => (Precedes.total hy hx).imp_right (.imp_left .symm)
  of_before := by
    rintro x best (less | ⟨rfl, rfl⟩)
    · simp [undercuts, less]
    · exact Bool.or_eq_true_iff.mpr (.inr rfl)
  of_better := by
    intro x best better
    rcases Bool.or_eq_true_iff.mp better with less | zeros
    · exact .inl (.inl less)
    · obtain ⟨zeros, negative⟩ := Bool.and_eq_true_iff.mp zeros
      obtain ⟨left, right⟩ := Bool.and_eq_true_iff.mp zeros
      exact (precedes_or_eq_of_zeros left right negative).imp_right .symm

section Best

variable {better : Binary64 → Binary64 → Bool} {before : Binary64 → Binary64 → Prop}
  {start best x y z : Binary64} {xs ys : List Binary64}

theorem isNaN_of_not_mem (numbers : .nan ∉ xs) (mem : x ∈ xs) : x.isNaN = false := by
  rw [← Bool.not_eq_true, isNaN_iff]
  rintro rfl
  exact numbers mem

theorem extremum_of_mem_nan (mem : .nan ∈ xs) : extremum better best xs = .nan := by
  induction xs generalizing best with
  | nil => cases mem
  | cons x xs ih =>
    rw [extremum]
    split
    · rfl
    · next number =>
      rcases List.mem_cons.mp mem with rfl | mem
      · exact absurd rfl number
      · exact ih mem

/-- One step takes a number that neither the best one before nor the new one is behind. -/
theorem Chooses.step (chooses : Chooses better before) (hx : x.isNaN = false)
    (hb : best.isNaN = false) (next : Binary64) (taken : (if better x best then x else best) = next) :
    (next = best ∨ next = x) ∧ (best = next ∨ before best next) ∧ (x = next ∨ before x next) := by
  subst taken
  cases choice : better x best with
  | true => exact ⟨.inr rfl, (chooses.of_better choice).symm, .inl rfl⟩
  | false =>
    refine ⟨.inl rfl, .inl rfl, ?_⟩
    rcases chooses.total hx hb with earlier | same | later
    · exact .inr earlier
    · exact .inl same
    · rw [chooses.of_before later] at choice
      cases choice

/-- The loop's result is the start or of the list, and neither is behind it. -/
theorem Chooses.extremum_spec (chooses : Chooses better before) (hb : best.isNaN = false)
    (numbers : .nan ∉ xs) : extremum better best xs ∈ best :: xs ∧
      ∀ x ∈ best :: xs, x = extremum better best xs ∨ before x (extremum better best xs) := by
  induction xs generalizing best with
  | nil => simp [extremum]
  | cons x xs ih =>
    have hx := isNaN_of_not_mem numbers List.mem_cons_self
    rw [extremum, if_neg (by simp [hx])]
    generalize taken : (if better x best then x else best) = next
    obtain ⟨one, from_best, from_x⟩ := chooses.step hx hb next taken
    have number : next.isNaN = false := by
      rcases one with rfl | rfl <;> assumption
    obtain ⟨mem, last⟩ := ih number fun mem => numbers (List.mem_cons_of_mem x mem)
    have through : ∀ {y}, y = next ∨ before y next →
        y = extremum better next xs ∨ before y (extremum better next xs) := by
      rintro y (rfl | earlier)
      · exact last _ List.mem_cons_self
      · rcases last next List.mem_cons_self with same | later
        · exact .inr (same ▸ earlier)
        · exact .inr (chooses.trans earlier later)
    refine ⟨?_, ?_⟩
    · rcases List.mem_cons.mp mem with same | mem
      · rw [same]
        rcases one with rfl | rfl <;> simp
      · simp [mem]
    · intro y mem
      rcases List.mem_cons.mp mem with rfl | mem
      · exact through from_best
      · rcases List.mem_cons.mp mem with rfl | mem
        · exact through from_x
        · exact last y (List.mem_cons_of_mem _ mem)

/-- From a start before everything, the loop takes the best element. -/
theorem Chooses.isBest_extremum (chooses : Chooses better before) (number : start.isNaN = false)
    (first : ∀ x, x.isNaN = false → start = x ∨ before start x) (xs : List Binary64) :
    IsBest before start xs (extremum better start xs) := by
  by_cases mem : .nan ∈ xs
  · rw [extremum_of_mem_nan mem]
    exact .nan mem
  · obtain ⟨taken, last⟩ := chooses.extremum_spec number mem
    cases xs with
    | nil => exact .empty rfl
    | cons x xs =>
      refine .member mem ?_ fun y mem => last y (List.mem_cons_of_mem _ mem)
      rcases List.mem_cons.mp taken with same | taken
      · -- No element is behind the start, so all of them are equal to it.
        have hx := isNaN_of_not_mem mem List.mem_cons_self
        have later := last x (List.mem_cons_of_mem _ List.mem_cons_self)
        rw [same] at later ⊢
        rcases first x hx with rfl | earlier
        · exact List.mem_cons_self
        · rcases later with rfl | later
          · exact List.mem_cons_self
          · exact absurd (chooses.trans earlier later) (chooses.irrefl start)
      · exact taken

/-- A list has one best element. -/
theorem IsBest.unique (chooses : Chooses better before) (left : IsBest before start xs x)
    (right : IsBest before start xs y) : x = y := by
  cases left with
  | nan mem =>
    cases right with
    | nan => rfl
    | empty empty => rw [empty] at mem; cases mem
    | member numbers => exact absurd mem numbers
  | empty empty =>
    cases right with
    | nan mem => rw [empty] at mem; cases mem
    | empty => rfl
    | member _ mem => rw [empty] at mem; cases mem
  | member numbers mem last =>
    cases right with
    | nan mem => exact absurd mem numbers
    | empty empty => rw [empty] at mem; cases mem
    | member _ mem' last' =>
      rcases last' x mem with same | earlier
      · exact same
      · rcases last y mem' with same | later
        · exact same.symm
        · exact absurd (chooses.trans earlier later) (chooses.irrefl x)

/-- The best element of a list is that of any other order of it. -/
theorem IsBest.perm (best : IsBest before start xs x) (perm : xs.Perm ys) :
    IsBest before start ys x := by
  cases best with
  | nan mem => exact .nan (perm.mem_iff.mp mem)
  | empty empty => exact .empty (by rw [empty] at perm; exact perm.nil_eq.symm)
  | member numbers mem last =>
    exact .member (fun mem => numbers (perm.mem_iff.mpr mem)) (perm.mem_iff.mp mem)
      fun y mem => last y (perm.mem_iff.mpr mem)

theorem isBest_singleton (x : Binary64) : IsBest before start [x] x := by
  by_cases nan : x = .nan
  · rw [nan]
    exact .nan List.mem_cons_self
  · refine .member ?_ List.mem_cons_self fun y mem => .inl (List.mem_singleton.mp mem)
    intro mem
    exact nan (List.mem_singleton.mp mem).symm

theorem IsBest.eq_nan_iff (number : start.isNaN = false) (best : IsBest before start xs x) :
    x = .nan ↔ .nan ∈ xs := by
  cases best with
  | nan mem => exact iff_of_true rfl mem
  | empty empty =>
    rw [empty]
    refine iff_of_false ?_ List.not_mem_nil
    rintro rfl
    cases number
  | member numbers mem =>
    refine iff_of_false ?_ numbers
    rintro rfl
    exact numbers mem

/-- What is not empty and of numbers has its best element, and no other one behind it. -/
theorem IsBest.last (best : IsBest before start xs x) (nonempty : xs ≠ []) (numbers : .nan ∉ xs) :
    x ∈ xs ∧ ∀ y ∈ xs, y = x ∨ before y x := by
  cases best with
  | nan mem => exact absurd mem numbers
  | empty empty => exact absurd empty nonempty
  | member _ mem last => exact ⟨mem, last⟩

/-- The best of the best elements of blocks, none of them empty, is the best of all elements. -/
theorem IsBest.flatMap (chooses : Chooses better before) (number : start.isNaN = false) {ι : Type}
    {blocks : List ι} {elements : ι → List Binary64} {value : ι → Binary64}
    (each : ∀ i ∈ blocks, elements i ≠ [] ∧ IsBest before start (elements i) (value i))
    (best : IsBest before start (blocks.map value) x) :
    IsBest before start (blocks.flatMap elements) x := by
  cases best with
  | nan mem =>
    obtain ⟨i, inside, nan⟩ := List.mem_map.mp mem
    exact .nan (List.mem_flatMap.mpr ⟨i, inside, ((each i inside).2.eq_nan_iff number).mp nan⟩)
  | empty empty => exact .empty (by rw [List.map_eq_nil_iff.mp empty]; rfl)
  | member numbers mem last =>
    have block_numbers : ∀ i ∈ blocks, .nan ∉ elements i := by
      intro i inside mem
      have nan := ((each i inside).2.eq_nan_iff number).mpr mem
      exact numbers (List.mem_map.mpr ⟨i, inside, nan⟩)
    have block_last := fun i inside =>
      (each i inside).2.last (each i inside).1 (block_numbers i inside)
    refine .member ?_ ?_ ?_
    · intro mem
      obtain ⟨i, inside, mem⟩ := List.mem_flatMap.mp mem
      exact block_numbers i inside mem
    · obtain ⟨i, inside, rfl⟩ := List.mem_map.mp mem
      exact List.mem_flatMap.mpr ⟨i, inside, (block_last i inside).1⟩
    · intro y mem
      obtain ⟨i, inside, mem⟩ := List.mem_flatMap.mp mem
      rcases (block_last i inside).2 y mem with rfl | earlier
      · exact last _ (List.mem_map_of_mem inside)
      · rcases last _ (List.mem_map_of_mem inside) with same | later
        · exact .inr (same ▸ earlier)
        · exact .inr (chooses.trans earlier later)

end Best

end Binary64

/-! ### Calls -/

open Binary64

/-- Calls of one function among the arguments of its calls. None is without arguments. -/
inductive Nesting where
  | number (x : Binary64)
  | call (first : Nesting) (others : List Nesting)

namespace Nesting

mutual

/-- The numbers of all calls. -/
def leaves : Nesting → List Binary64
  | number x => [x]
  | call first others => first.leaves ++ leavesAll others

def leavesAll : List Nesting → List Binary64
  | [] => []
  | nesting :: nestings => nesting.leaves ++ leavesAll nestings

end

mutual

/-- The value of the outermost call. -/
def value (function : MathFunction) : Nesting → Binary64
  | number x => x
  | call first others => function.value (first.value function :: valueAll function others)

def valueAll (function : MathFunction) : List Nesting → List Binary64
  | [] => []
  | nesting :: nestings => nesting.value function :: valueAll function nestings

end

theorem leavesAll_eq (nestings : List Nesting) : leavesAll nestings = nestings.flatMap leaves := by
  induction nestings with
  | nil => rfl
  | cons nesting nestings ih => rw [leavesAll, ih, List.flatMap_cons]

theorem valueAll_eq (function : MathFunction) (nestings : List Nesting) :
    valueAll function nestings = nestings.map (value function) := by
  induction nestings with
  | nil => rfl
  | cons nesting nestings ih => rw [valueAll, ih, List.map_cons]

end Nesting

section Calls

variable {function : MathFunction} {start : Binary64} {before : Binary64 → Binary64 → Prop}
  {better : Binary64 → Binary64 → Bool}

mutual

/-- However the calls are nested, the value is the best of all numbers. -/
theorem Nesting.isBest_value (chooses : Chooses better before) (number : start.isNaN = false)
    (best : ∀ xs, IsBest before start xs (function.value xs)) : ∀ nesting : Nesting,
    nesting.leaves ≠ [] ∧ IsBest before start nesting.leaves (nesting.value function)
  | .number x => ⟨List.cons_ne_nil x [], isBest_singleton x⟩
  | .call first others => by
    have here := Nesting.isBest_value chooses number best first
    have behind := Nesting.isBest_values chooses number best others
    have all := IsBest.flatMap chooses number (List.forall_mem_cons.mpr ⟨here, behind⟩)
      (best ((first :: others).map (Nesting.value function)))
    rw [List.flatMap_cons, List.map_cons, ← Nesting.leavesAll_eq, ← Nesting.valueAll_eq] at all
    exact ⟨List.append_ne_nil_of_left_ne_nil here.1 _, all⟩

theorem Nesting.isBest_values (chooses : Chooses better before) (number : start.isNaN = false)
    (best : ∀ xs, IsBest before start xs (function.value xs)) : ∀ nestings : List Nesting,
    ∀ nesting ∈ nestings,
      nesting.leaves ≠ [] ∧ IsBest before start nesting.leaves (nesting.value function)
  | [] => nofun
  | nesting :: nestings => List.forall_mem_cons.mpr
    ⟨Nesting.isBest_value chooses number best nesting,
      Nesting.isBest_values chooses number best nestings⟩

end

/-- A function takes the last of its arguments in an order, whatever their order is and however the
calls are nested. -/
structure TakesLast (function : MathFunction) (start : Binary64)
    (before : Binary64 → Binary64 → Prop) : Prop where
  apply_eq : ∀ xs, function.apply xs = pure (function.value xs)
  eq_nan_iff : ∀ xs, function.value xs = .nan ↔ .nan ∈ xs
  value_nil : function.value [] = start
  last : ∀ xs, xs ≠ [] → .nan ∉ xs →
    function.value xs ∈ xs ∧ ∀ x ∈ xs, x = function.value xs ∨ before x (function.value xs)
  perm : ∀ xs ys, xs.Perm ys → function.value xs = function.value ys
  nested : ∀ nesting : Nesting, nesting.value function = function.value nesting.leaves

theorem takesLast_of_isBest (chooses : Chooses better before) (number : start.isNaN = false)
    (best : ∀ xs, IsBest before start xs (function.value xs))
    (apply_eq : ∀ xs, function.apply xs = pure (function.value xs)) :
    TakesLast function start before where
  apply_eq := apply_eq
  eq_nan_iff := fun xs => (best xs).eq_nan_iff number
  value_nil := (best []).unique chooses (.empty rfl)
  last := fun xs => (best xs).last
  perm := fun xs ys perm => ((best xs).perm perm).unique chooses (best ys)
  nested := fun nesting => (nesting.isBest_value chooses number best).2.unique chooses (best _)

/-- The greatest and the least argument, the negative zero below the positive one. -/
theorem max_min_takeLast :
    TakesLast .max (.infinite true) Precedes ∧
      TakesLast .min (.infinite false) fun x y => Precedes y x := by
  constructor
  · exact takesLast_of_isBest chooses_exceeds rfl
      (chooses_exceeds.isBest_extremum rfl fun x number => (between_infinites number).1)
      fun xs => rfl
  · exact takesLast_of_isBest chooses_undercuts rfl
      (chooses_undercuts.isBest_extremum rfl fun x number => (between_infinites number).2)
      fun xs => rfl

theorem max_min_takeLast_zeros :
    Nesting.value .max (.call (.call (.number (zero true)) [.number (zero false)])
        [.number (infinite true)]) =
      MathFunction.max.value [zero true, zero false, infinite true] ∧
    MathFunction.min.value [zero false, zero true] = MathFunction.min.value [zero true, zero false] :=
  ⟨max_min_takeLast.1.nested _, max_min_takeLast.2.perm _ _ (.swap _ _ _)⟩

end Calls

end SelectionFormula
