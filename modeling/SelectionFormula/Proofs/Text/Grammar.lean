import Mathlib.Order.Bounds.Basic
import SelectionFormula.Proofs.Text.Matching

/-!
The grammar of nested brackets, and where a text leaves it.

`Nested` generates the texts whose brackets nest; they are the balanced ones
(`nested_iff_balanced`). What is at fault in any other text is said without the stack
of the nesting check: a closing bracket that does not match the innermost bracket open
before it (`MismatchedCloser`), and an opening bracket that nothing closes
(`UnclosedOpener`).

* `innermostOpen_iff` — the innermost bracket open behind a text is the one on top of
  its run.
* `completable_iff` — a text can be completed to a nested one exactly when its run does
  not stop.
* `firstFault?_spec` — the check finds the first mismatched closing bracket, and where
  there is none the first unclosed opening one.
-/

namespace SelectionFormula.Text

variable {bracket : Bracket} {s t text : List Char}

/-- The texts whose brackets nest: nothing, a character that is no bracket and such a
text, or such a text between two brackets of a kind and such a text. -/
inductive Nested : List Char → Prop where
  | nil : Nested []
  | plain {c : Char} {text : List Char} : BracketMark.ofChar? c = none → Nested text →
      Nested (c :: text)
  | group {bracket : Bracket} {inner text : List Char} : Nested inner → Nested text →
      Nested (bracket.opener :: inner ++ bracket.closer :: text)

theorem Nested.balanced (nested : Nested text) : Balanced text := by
  induction nested with
  | nil => exact balanced_nil
  | plain mark _ ih => simpa [Balanced, openAfter?, mark] using ih
  | @group bracket inner text _ _ first later => simpa using (first.group bracket).append later

/-- The grammar generates exactly the balanced texts. -/
theorem nested_iff_balanced : Nested text ↔ Balanced text := by
  refine ⟨Nested.balanced, fun balanced => ?_⟩
  induction size : text.length using Nat.strongRecOn generalizing text with
  | ind n ih =>
    cases text with
    | nil => exact .nil
    | cons c text =>
      rw [List.length_cons] at size
      cases mark : BracketMark.ofChar? c with
      | none =>
        have rest : Balanced text := by simpa [Balanced, openAfter?, mark] using balanced
        exact .plain mark (ih text.length (by omega) rest rfl)
      | some side =>
        cases side with
        | closing kind => simp [Balanced, openAfter?, mark] at balanced
        | opening kind =>
          rw [eq_opener_of_mark mark] at balanced ⊢
          obtain ⟨inner, rest, rfl, first, later⟩ := balanced.exists_closer
          rw [List.length_append, List.length_cons] at size
          exact .group (ih inner.length (by omega) first rfl) (ih rest.length (by omega) later rfl)

/-! ### The brackets open behind a text -/

/-- A bracket is the innermost one open behind a text: all that was opened behind it is
closed. -/
def InnermostOpen (bracket : Bracket) (text : List Char) : Prop :=
  ∃ outer inner, text = outer ++ bracket.opener :: inner ∧ Nested inner

/-- The innermost bracket open behind a text is the one on top of its run. -/
theorem innermostOpen_iff {stack : List Bracket} (run : openAfter? [] s = some stack) :
    InnermostOpen bracket s ↔ stack.head? = some bracket := by
  constructor
  · rintro ⟨outer, inner, rfl, nested⟩
    rw [openAfter?_append] at run
    obtain ⟨below, -, top⟩ := Option.bind_eq_some_iff.mp run
    have kept : openAfter? (bracket :: below) inner = some (bracket :: below) :=
      openAfter?_below nested.balanced (bracket :: below)
    have same : bracket :: below = stack := by simpa [openAfter?, kept] using top
    rw [← same, List.head?_cons]
  · intro top
    obtain ⟨below, rfl⟩ := List.head?_eq_some_iff.mp top
    obtain ⟨outer, inner, split, -, balanced⟩ := exists_opener_of_openAfter? run
    exact ⟨outer, inner, split, nested_iff_balanced.mpr balanced⟩

theorem head?_of_openAfter?_closer {stack after : List Bracket}
    (run : openAfter? stack (bracket.closer :: t) = some after) : stack.head? = some bracket := by
  cases stack with
  | nil => simp [openAfter?] at run
  | cons innermost outer =>
    by_cases same : innermost = bracket
    · rw [same, List.head?_cons]
    · simp [openAfter?, same] at run

/-- A closing bracket that a run goes past matches the innermost bracket open before it. -/
theorem innermostOpen_of_openAfter? {after : List Bracket}
    (run : openAfter? [] (s ++ bracket.closer :: t) = some after) : InnermostOpen bracket s := by
  rw [openAfter?_append] at run
  obtain ⟨stack, front, past⟩ := Option.bind_eq_some_iff.mp run
  exact (innermostOpen_iff front).mpr (head?_of_openAfter?_closer past)

/-- A run stops at a closing bracket of another kind than the one on top. -/
theorem openAfter?_eq_none_iff {pending : List Bracket} :
    openAfter? pending text = none ↔ ∃ before bracket after stack,
      text = before ++ bracket.closer :: after ∧ openAfter? pending before = some stack ∧
        stack.head? ≠ some bracket := by
  constructor
  · intro stops
    fun_induction openAfter? pending text with
    | case1 => cases stops
    | case2 c text pending mark ih =>
      obtain ⟨before, bracket, after, stack, rfl, run, other⟩ := ih stops
      exact ⟨c :: before, bracket, after, stack, rfl, by simpa [openAfter?, mark] using run, other⟩
    | case3 c text pending kind mark ih =>
      obtain ⟨before, bracket, after, stack, rfl, run, other⟩ := ih stops
      exact ⟨c :: before, bracket, after, stack, rfl, by simpa [openAfter?, mark] using run, other⟩
    | case4 c text kind outer mark ih =>
      obtain ⟨before, bracket, after, stack, rfl, run, other⟩ := ih stops
      exact ⟨c :: before, bracket, after, stack, rfl, by simpa [openAfter?, mark] using run, other⟩
    | case5 c text kind innermost outer mark other =>
      exact ⟨[], kind, text, innermost :: outer, by rw [eq_closer_of_mark mark]; rfl, rfl,
        by simpa using other⟩
    | case6 c text kind mark =>
      exact ⟨[], kind, text, [], by rw [eq_closer_of_mark mark]; rfl, rfl, by simp⟩
  · rintro ⟨before, bracket, after, stack, rfl, run, other⟩
    rw [openAfter?_append, run, Option.bind_some, Option.eq_none_iff_forall_not_mem]
    exact fun _ past => other (head?_of_openAfter?_closer past)

/-! ### Completing a text -/

theorem openAfter?_closers (stack : List Bracket) :
    openAfter? stack (stack.map Bracket.closer) = some [] := by
  induction stack with
  | nil => rfl
  | cons bracket stack ih => simpa [openAfter?] using ih

/-- A text can be completed to a nested one exactly when its run does not stop: the
brackets still open are closed one after the other. -/
theorem completable_iff : (∃ rest, Nested (s ++ rest)) ↔ openAfter? [] s ≠ none := by
  constructor
  · rintro ⟨rest, nested⟩ stops
    have run := nested.balanced
    rw [Balanced, openAfter?_append, stops] at run
    cases run
  · intro goes
    obtain ⟨stack, run⟩ := Option.ne_none_iff_exists'.mp goes
    refine ⟨stack.map Bracket.closer, nested_iff_balanced.mpr ?_⟩
    rw [Balanced, openAfter?_append, run, Option.bind_some, openAfter?_closers]

/-! ### What can be at fault -/

/-- A closing bracket that does not match the innermost bracket open before it. -/
def MismatchedCloser (text : List Char) (offset : Nat) : Prop :=
  ∃ (before : List Char) (bracket : Bracket) (after : List Char),
    text = before ++ bracket.closer :: after ∧ offset = byteLength before ∧
      ¬ InnermostOpen bracket before

/-- An opening bracket that no closing one of its kind closes. -/
def UnclosedOpener (text : List Char) (offset : Nat) : Prop :=
  ∃ (before : List Char) (bracket : Bracket) (after : List Char),
    text = before ++ bracket.opener :: after ∧ offset = byteLength before ∧
      ∀ inner rest, after = inner ++ bracket.closer :: rest → ¬ Nested inner

theorem not_mismatchedCloser {after : List Bracket} (run : openAfter? [] text = some after)
    (offset : Nat) : ¬ MismatchedCloser text offset := by
  rintro ⟨before, bracket, behind, rfl, -, other⟩
  exact other (innermostOpen_of_openAfter? run)

/-- Where a run stops there is the first mismatched closing bracket. -/
theorem isLeast_mismatchedCloser {stack : List Bracket} (run : openAfter? [] s = some stack)
    (other : stack.head? ≠ some bracket) (t : List Char) :
    IsLeast {place | MismatchedCloser (s ++ bracket.closer :: t) place} (byteLength s) := by
  constructor
  · exact ⟨s, bracket, t, rfl, rfl, by rwa [innermostOpen_iff run]⟩
  · rintro place ⟨before, kind, after, split, rfl, mismatched⟩
    by_contra earlier
    obtain ⟨mid, rfl, -⟩ := split_between split rfl (Nat.lt_of_not_le earlier)
    exact mismatched (innermostOpen_of_openAfter? run)

/-- A balanced text closes what it opens. -/
theorem Balanced.exists_partner (balanced : Balanced (s ++ bracket.opener :: t)) :
    ∃ inner rest, t = inner ++ bracket.closer :: rest ∧ Nested inner := by
  rw [Balanced, openAfter?_append] at balanced
  obtain ⟨stack, -, later⟩ := Option.bind_eq_some_iff.mp balanced
  have run : openAfter? ([] ++ bracket :: stack) t = some [] := by simpa [openAfter?] using later
  obtain ⟨inner, rest, split, closed, -⟩ := exists_closer_of_openAfter? run (Nat.zero_le _)
  exact ⟨inner, rest, split, nested_iff_balanced.mpr closed⟩

theorem Balanced.not_unclosedOpener (balanced : Balanced text) (offset : Nat) :
    ¬ UnclosedOpener text offset := by
  rintro ⟨before, bracket, after, rfl, -, unclosed⟩
  obtain ⟨inner, rest, split, nested⟩ := balanced.exists_partner
  exact unclosed inner rest split nested

/-- An opening bracket behind a balanced text is the first unclosed one when the run behind
it does not go below it. -/
theorem isLeast_unclosedOpener {after : List Bracket} (front : Balanced s)
    (run : openAfter? [] t = some after) (bracket : Bracket) :
    IsLeast {place | UnclosedOpener (s ++ bracket.opener :: t) place} (byteLength s) := by
  constructor
  · refine ⟨s, bracket, t, rfl, rfl, ?_⟩
    rintro inner rest rfl nested
    rw [openAfter?_append, nested.balanced, Option.bind_some] at run
    cases head?_of_openAfter?_closer run
  · rintro place ⟨before, kind, behind, split, rfl, unclosed⟩
    by_contra earlier
    obtain ⟨mid, rfl, rfl⟩ := split_between split rfl (Nat.lt_of_not_le earlier)
    obtain ⟨inner, rest, rfl, nested⟩ := front.exists_partner
    exact unclosed inner (rest ++ bracket.opener :: t) (by simp) nested

/-- The outermost of the brackets open behind a text: balanced in front of it, and the run
behind it does not go below it. -/
theorem exists_outermost {stack : List Bracket} (run : openAfter? [] text = some stack)
    (opened : stack ≠ []) :
    ∃ (before : List Char) (bracket : Bracket) (behind : List Char) (after : List Bracket),
      text = before ++ bracket.opener :: behind ∧ Balanced before ∧
        openAfter? [] behind = some after := by
  induction stack generalizing text with
  | nil => exact absurd rfl opened
  | cons top below ih =>
    obtain ⟨outer, inner, rfl, front, balanced⟩ := exists_opener_of_openAfter? run
    cases below with
    | nil => exact ⟨outer, top, inner, [], rfl, front, balanced⟩
    | cons next below =>
      obtain ⟨before, bracket, behind, after, rfl, first, later⟩ := ih front (by simp)
      refine ⟨before, bracket, behind ++ top.opener :: inner, top :: after, by simp, first, ?_⟩
      have kept : openAfter? (top :: after) inner = some (top :: after) :=
        openAfter?_below balanced (top :: after)
      simpa [openAfter?_append, later, openAfter?] using kept

/-! ### What the nesting check finds -/

theorem faultFrom?_of_mismatch {pending : List (Bracket × Nat)} {stack : List Bracket}
    (run : openAfter? (pending.map (·.1)) s = some stack) (other : stack.head? ≠ some bracket)
    (offset : Nat) (t : List Char) :
    faultFrom? pending offset (s ++ bracket.closer :: t) = some (offset + byteLength s) := by
  induction s generalizing pending offset with
  | nil =>
    obtain rfl : pending.map (·.1) = stack := Option.some.inj run
    rw [List.nil_append, faultFrom?, ofChar?_closer]
    cases pending with
    | nil => rfl
    | cons innermost outer =>
      have differs : innermost.1 ≠ bracket := by simpa using other
      simp [differs]
  | cons c s ih =>
    rw [List.cons_append, faultFrom?, byteLength_cons, ← Nat.add_assoc]
    cases mark : BracketMark.ofChar? c with
    | none => exact ih (by simpa [openAfter?, mark] using run) (offset + c.utf8Size)
    | some side =>
      cases side with
      | opening kind =>
        exact @ih ((kind, offset) :: pending) (by simpa [openAfter?, mark] using run)
          (offset + c.utf8Size)
      | closing kind =>
        cases pending with
        | nil => simp [openAfter?, mark] at run
        | cons innermost outer =>
          by_cases same : innermost.1 = kind
          · have rest : openAfter? (outer.map (·.1)) s = some stack := by
              simpa [openAfter?, mark, same] using run
            simpa [same] using ih rest (offset + c.utf8Size)
          · simp [openAfter?, mark, same] at run

/-- The bracket below all those that a run reaches is at fault when the text ends. -/
theorem faultFrom?_of_unclosed {above : List (Bracket × Nat)} {after : List Bracket}
    (run : openAfter? (above.map (·.1)) t = some after) (bracket : Bracket) (place offset : Nat) :
    faultFrom? (above ++ [(bracket, place)]) offset t = some place := by
  induction t generalizing above offset with
  | nil => simp [faultFrom?]
  | cons c t ih =>
    rw [faultFrom?]
    cases mark : BracketMark.ofChar? c with
    | none => exact ih (by simpa [openAfter?, mark] using run) (offset + c.utf8Size)
    | some side =>
      cases side with
      | opening kind =>
        exact @ih ((kind, offset) :: above) (by simpa [openAfter?, mark] using run)
          (offset + c.utf8Size)
      | closing kind =>
        cases above with
        | nil => simp [openAfter?, mark] at run
        | cons innermost above =>
          by_cases same : innermost.1 = kind
          · have rest : openAfter? (above.map (·.1)) t = some after := by
              simpa [openAfter?, mark, same] using run
            simpa [same] using ih rest (offset + c.utf8Size)
          · simp [openAfter?, mark, same] at run

/-- What the run of a text says about its faults. -/
inductive Verdict (text : List Char) : Option Nat → Prop where
  | nested : Nested text → Verdict text none
  | mismatched {before after : List Char} {bracket : Bracket} :
      text = before ++ bracket.closer :: after → openAfter? [] before ≠ none →
      openAfter? [] (before ++ [bracket.closer]) = none →
      IsLeast {place | MismatchedCloser text place} (byteLength before) →
      Verdict text (some (byteLength before))
  | unclosed {before after : List Char} {bracket : Bracket} :
      text = before ++ bracket.opener :: after → Nested before →
      (∀ place, ¬ MismatchedCloser text place) →
      IsLeast {place | UnclosedOpener text place} (byteLength before) →
      Verdict text (some (byteLength before))

theorem verdict_firstFault? (text : List Char) : Verdict text (firstFault? text) := by
  cases run : openAfter? [] text with
  | none =>
    obtain ⟨before, bracket, after, stack, rfl, front, other⟩ := openAfter?_eq_none_iff.mp run
    have found := @faultFrom?_of_mismatch bracket before [] stack front other 0 after
    rw [firstFault?, found, Nat.zero_add]
    refine .mismatched rfl (by simp [front]) ?_ (isLeast_mismatchedCloser front other after)
    exact openAfter?_eq_none_iff.mpr ⟨before, bracket, [], stack, rfl, front, other⟩
  | some stack =>
    by_cases closed : stack = []
    · have balanced : Balanced text := run.trans (congrArg some closed)
      rw [(firstFault?_eq_none_iff text).mpr balanced]
      exact .nested (nested_iff_balanced.mpr balanced)
    · obtain ⟨before, bracket, behind, after, rfl, front, later⟩ := exists_outermost run closed
      have found : firstFault? (before ++ bracket.opener :: behind) = some (byteLength before) := by
        rw [firstFault?, faultFrom?_append_of_balanced front, faultFrom?, ofChar?_opener,
          Nat.zero_add]
        exact @faultFrom?_of_unclosed behind [] after later bracket (byteLength before) _
      rw [found]
      exact .unclosed rfl (nested_iff_balanced.mpr front) (not_mismatchedCloser run)
        (isLeast_unclosedOpener front later bracket)

theorem firstFault?_eq_some_iff {offset : Nat} :
    firstFault? text = some offset ↔
      IsLeast {place | MismatchedCloser text place} offset ∨
        (∀ place, ¬ MismatchedCloser text place) ∧
          IsLeast {place | UnclosedOpener text place} offset := by
  have verdict := verdict_firstFault? text
  generalize firstFault? text = fault at verdict
  cases verdict with
  | nested nested =>
    refine ⟨nofun, ?_⟩
    rintro (⟨mismatched, -⟩ | ⟨-, unclosed, -⟩)
    · exact absurd mismatched (not_mismatchedCloser nested.balanced offset)
    · exact absurd unclosed (nested.balanced.not_unclosedOpener offset)
  | mismatched _ _ _ first =>
    refine ⟨fun found => .inl (Option.some.inj found ▸ first), ?_⟩
    rintro (other | ⟨none, -⟩)
    · exact congrArg some (first.unique other)
    · exact absurd first.1 (none _)
  | unclosed _ _ none first =>
    refine ⟨fun found => .inr ⟨none, Option.some.inj found ▸ first⟩, ?_⟩
    rintro (⟨mismatched, -⟩ | ⟨-, other⟩)
    · exact absurd mismatched (none offset)
    · exact congrArg some (first.unique other)

/-- Up to the first mismatched closing bracket a text can still be completed, and from it on
it cannot. -/
theorem completable_iff_of_mismatched {offset : Nat}
    (first : IsLeast {place | MismatchedCloser text place} offset) {before after : List Char}
    (split : text = before ++ after) :
    (∃ rest, Nested (before ++ rest)) ↔ byteLength before ≤ offset := by
  have verdict := verdict_firstFault? text
  rw [firstFault?_eq_some_iff.mpr (.inl first)] at verdict
  generalize found : some offset = fault at verdict
  cases verdict with
  | nested _ => cases found
  | unclosed _ _ none _ => exact absurd first.1 (none offset)
  | @mismatched front behind bracket cut goes stops _ =>
    obtain rfl := Option.some.inj found
    rw [completable_iff]
    rcases List.append_eq_append_iff.mp (split.symm.trans cut) with ⟨w, rfl, -⟩ | ⟨w, rfl, tail⟩
    · refine iff_of_true (fun stopped => goes ?_) (by simp)
      rw [openAfter?_append, stopped, Option.bind_none]
    · cases w with
      | nil => exact iff_of_true (by simpa using goes) (by simp)
      | cons c w =>
        obtain ⟨rfl, -⟩ := List.cons.inj tail
        refine iff_of_false (not_not.mpr ?_) ?_
        · rw [List.append_cons, openAfter?_append, stops, Option.bind_none]
        · have := utf8Size_pos bracket.closer
          rw [byteLength_append, byteLength_cons]
          omega

/-- In front of the first unclosed opening bracket a text without mismatched closing ones is
nested. -/
theorem nested_before_unclosed {offset : Nat} (none : ∀ place, ¬ MismatchedCloser text place)
    (first : IsLeast {place | UnclosedOpener text place} offset) {before after : List Char}
    (split : text = before ++ after) (here : byteLength before = offset) : Nested before := by
  have verdict := verdict_firstFault? text
  rw [firstFault?_eq_some_iff.mpr (.inr ⟨none, first⟩)] at verdict
  generalize found : some offset = fault at verdict
  cases verdict with
  | nested _ => cases found
  | mismatched _ _ _ other => exact absurd other.1 (none _)
  | unclosed cut nested _ _ =>
    obtain rfl := Option.some.inj found
    obtain ⟨rfl, -⟩ := append_inj_of_byteLength (split.symm.trans cut) here
    exact nested

/-- The nesting check finds no fault exactly in nested texts. In any other it finds the first
mismatched closing bracket, up to which the text can still be completed and from which on it
cannot; where no closing bracket is mismatched it finds the first unclosed opening one, and
the text in front of that is nested. -/
theorem firstFault?_spec (text : List Char) :
    (firstFault? text = none ↔ Nested text) ∧
    (∀ offset, firstFault? text = some offset ↔
      IsLeast {place | MismatchedCloser text place} offset ∨
        (∀ place, ¬ MismatchedCloser text place) ∧
          IsLeast {place | UnclosedOpener text place} offset) ∧
    (∀ offset before after, IsLeast {place | MismatchedCloser text place} offset →
      text = before ++ after →
      ((∃ rest, Nested (before ++ rest)) ↔ byteLength before ≤ offset)) ∧
    (∀ offset before after, (∀ place, ¬ MismatchedCloser text place) →
      IsLeast {place | UnclosedOpener text place} offset → text = before ++ after →
      byteLength before = offset → Nested before) := by
  refine ⟨?_, fun _ => firstFault?_eq_some_iff, ?_, ?_⟩
  · rw [firstFault?_eq_none_iff, nested_iff_balanced]
  · exact fun _ _ _ first split => completable_iff_of_mismatched first split
  · exact fun _ _ _ none first split here => nested_before_unclosed none first split here

/-- A closing bracket of the wrong kind, and an opening one that is never closed. -/
theorem firstFault?_spec_samples :
    (∃ rest, Nested ("(a".toList ++ rest)) ∧ (¬ ∃ rest, Nested ("(a]".toList ++ rest)) ∧
      Nested "(a)".toList := by
  have mismatched : IsLeast {place | MismatchedCloser "(a]b)".toList place} 2 :=
    @isLeast_mismatchedCloser .square "(a".toList [.round] rfl (by simp) "b)".toList
  have none : ∀ place, ¬ MismatchedCloser "(a)[b".toList place :=
    @not_mismatchedCloser "(a)[b".toList [.square] rfl
  have unclosed : IsLeast {place | UnclosedOpener "(a)[b".toList place} 3 :=
    @isLeast_unclosedOpener "(a)".toList ['b'] [] rfl rfl .square
  have completed := (firstFault?_spec "(a]b)".toList).2.2.1 2
  refine ⟨(completed _ "]b)".toList mismatched rfl).mpr (Nat.le_refl 2), ?_, ?_⟩
  · rw [completed _ "b)".toList mismatched rfl]
    exact (by decide : ¬ 3 ≤ 2)
  · exact (firstFault?_spec "(a)[b".toList).2.2.2 3 _ "[b".toList none unclosed rfl rfl

end SelectionFormula.Text
