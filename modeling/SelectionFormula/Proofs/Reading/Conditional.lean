import SelectionFormula.Proofs.Reading.Operand

/-!
Chains of conditions.

Reading looks for the last `?` and for the last `:` on their own and goes on in the three parts
between them. What a text with several of them is read as is told here by the text as it is: the
marks outside its brackets (`marks`) must be `?` and `:` in turn, and the texts between them
(`segments`) are then read one by one, and nested to the left (`nest`).

* `exists_last_branch` — a text whose marks alternate is cut at its last two marks into one whose
  marks alternate and two without marks.
* `read_branch_iff` — a text that is cut like this is read as the condition of its parts.
* `alternates_of_accepted` — the marks of every accepted text alternate.
* `read_eq_ok_iff_nest` — the texts that are read, told by their marks and segments, and what
  they are read as.
-/

namespace SelectionFormula

open Text

/-- A mark of a condition. -/
def isMark (c : Char) : Bool :=
  c == '?' || c == ':'

/-- The marks outside all brackets, in order. -/
def marks (text : List Char) : List Char :=
  (outside text).filter isMark

/-- `?` and `:` in turn. -/
def alternation (n : Nat) : List Char :=
  (List.replicate n ['?', ':']).flatten

/-- The texts between the marks outside all brackets. -/
def segments (text : List Char) : List (List Char) :=
  (pieces '?' text).flatMap (pieces ':')

/-- Texts put together with `?` and `:` in turn between them. -/
def alternated : List (List Char) → List Char
  | [] => []
  | [last] => last
  | condition :: yes :: later => condition ++ '?' :: yes ++ ':' :: alternated later

/-- A condition with two branches is the condition of the two branches behind it. -/
def nest : Expr → List Expr → Expr
  | condition, yes :: no :: later => nest (.conditional condition yes no) later
  | condition, _ => condition

/-! ### Marks -/

section Marks

variable {c : Char} {n : Nat} {s t text : List Char}

theorem nesting_of_isMark (mark : isMark c = true) : nesting c = 0 := by
  rcases Bool.or_eq_true_iff.mp mark with question | colon
  · rw [beq_iff_eq.mp question]
    rfl
  · rw [beq_iff_eq.mp colon]
    rfl

theorem isMark_eq_false_of_isBlank (blank : isBlank c = true) : isMark c = false := by
  by_contra mark
  rcases Bool.or_eq_true_iff.mp (Bool.of_not_eq_false mark) with question | colon
  · rw [beq_iff_eq.mp question] at blank
    exact absurd blank (by decide)
  · rw [beq_iff_eq.mp colon] at blank
    exact absurd blank (by decide)

theorem marks_append (closed : depth s = 0) (t : List Char) :
    marks (s ++ t) = marks s ++ marks t := by
  rw [marks, outside_append closed, List.filter_append]
  rfl

theorem marks_cons (mark : isMark c = true) (text : List Char) :
    marks (c :: text) = c :: marks text := by
  rw [marks, outside_cons (nesting_of_isMark mark), List.filter_cons_of_pos mark]
  rfl

theorem not_mem_outside_of_unmarked (unmarked : marks text = []) (mark : isMark c = true) :
    c ∉ outside text := by
  intro outer
  exact List.filter_eq_nil_iff.mp unmarked c outer mark

theorem not_mem_outside_of_absent (closed : depth text = 0)
    (absent : lastOccurrence? [c] text = none) : c ∉ outside text := by
  intro outer
  obtain ⟨s, t, rfl, front, -⟩ := mem_outside_iff.mp outer
  rw [depth_append, front, Int.zero_add] at closed
  exact (lastOccurrence?_eq_none_iff (by simp)).mp absent s (c :: t) rfl closed ⟨t, rfl⟩

theorem unmarked_of_not_mem (question : '?' ∉ outside text) (colon : ':' ∉ outside text) :
    marks text = [] := by
  rw [marks, List.filter_eq_nil_iff]
  intro c outer mark
  rcases Bool.or_eq_true_iff.mp mark with same | same
  · exact question (beq_iff_eq.mp same ▸ outer)
  · exact colon (beq_iff_eq.mp same ▸ outer)

theorem unmarked_of_allBlank (blank : AllBlank text) : marks text = [] := by
  rw [marks, List.filter_eq_nil_iff]
  intro c outer mark
  rw [isMark_eq_false_of_isBlank (blank c (outside_subset outer))] at mark
  cases mark

/-- Blanks around a text are no marks. -/
theorem marks_trim (balanced : Balanced text) : marks (trim text) = marks text := by
  obtain ⟨trail, trailing, split⟩ := trim_split text
  have leading := allBlank_takeWhile text
  have lead := leading.unbracketed.depth_eq_zero
  have inside := (Expr.balanced_trim_iff.mpr balanced).depth_eq_zero
  conv_rhs => rw [split]
  rw [List.append_assoc, marks_append lead, marks_append inside, unmarked_of_allBlank leading,
    unmarked_of_allBlank trailing, List.nil_append, List.append_nil]

theorem alternation_succ (n : Nat) : alternation (n + 1) = alternation n ++ ['?', ':'] := by
  rw [alternation, List.replicate_succ', List.flatten_append]
  rfl

end Marks

/-! ### Cutting at the last two marks -/

/-- A text is cut where its outer characters are. -/
theorem exists_cut_of_outsideFrom {before : Int} {c : Char} {text x y : List Char}
    (outer : outsideFrom before text = x ++ c :: y) :
    ∃ s t, text = s ++ c :: t ∧ before + depth s = 0 ∧ outsideFrom before s = x ∧
      outside t = y := by
  induction text generalizing before x with
  | nil => simp [outsideFrom] at outer
  | cons d text ih =>
    rw [outsideFrom] at outer
    split at outer
    · next here =>
      cases x with
      | nil =>
        obtain ⟨rfl, rfl⟩ := List.cons.inj outer
        exact ⟨[], text, rfl, by simpa using here.1, rfl, by rw [here.1, here.2]; rfl⟩
      | cons e x =>
        obtain ⟨rfl, later⟩ := List.cons.inj outer
        obtain ⟨s, t, rfl, closed, rfl, behind⟩ := ih later
        refine ⟨d :: s, t, rfl, by rw [depth_cons, ← Int.add_assoc, closed], ?_, behind⟩
        rw [outsideFrom, if_pos here]
    · next inner =>
      obtain ⟨s, t, rfl, closed, rfl, behind⟩ := ih outer
      refine ⟨d :: s, t, rfl, by rw [depth_cons, ← Int.add_assoc, closed], ?_, behind⟩
      rw [outsideFrom, if_neg inner]

/-- A text is cut where its marks are. -/
theorem exists_cut_of_marks {c : Char} {text before after : List Char}
    (found : marks text = before ++ c :: after) :
    ∃ s t, text = s ++ c :: t ∧ depth s = 0 ∧ marks s = before ∧ marks t = after := by
  obtain ⟨front, rest, split, rfl, later⟩ := List.filter_eq_append_iff.mp found
  obtain ⟨mid, behind, rfl, plain, -, rfl⟩ := List.filter_eq_cons_iff.mp later
  rw [← List.append_assoc] at split
  obtain ⟨s, t, rfl, closed, first, rfl⟩ := exists_cut_of_outsideFrom split
  rw [Int.zero_add] at closed
  refine ⟨s, t, rfl, closed, ?_, rfl⟩
  have none : mid.filter isMark = [] := List.filter_eq_nil_iff.mpr plain
  rw [marks, outside, first, List.filter_append, none, List.append_nil]

/-- Three texts for a condition whose two branches have no marks. -/
structure Branching (condition yes no : List Char) : Prop where
  front : depth condition = 0
  inner : depth yes = 0
  yes : marks yes = []
  no : marks no = []

/-- A text whose marks alternate is cut at its last two marks. -/
theorem exists_last_branch {n : Nat} {text : List Char}
    (alternates : marks text = alternation (n + 1)) :
    ∃ condition yes no, text = condition ++ '?' :: yes ++ ':' :: no ∧
      Branching condition yes no ∧ marks condition = alternation n := by
  have colon : marks text = (alternation n ++ ['?']) ++ ':' :: [] := by
    rw [alternates, alternation_succ, List.append_assoc]
    rfl
  obtain ⟨front, no, rfl, closed, question, unmarked⟩ := exists_cut_of_marks colon
  obtain ⟨condition, yes, rfl, first, earlier, none⟩ := exists_cut_of_marks question
  have inner : depth yes = 0 := by
    have plain : nesting '?' = 0 := rfl
    rw [depth_append, depth_cons, first, plain] at closed
    omega
  exact ⟨condition, yes, no, rfl, ⟨first, inner, none, unmarked⟩, earlier⟩

section Branching

variable {condition yes no : List Char} (branching : Branching condition yes no)

include branching

theorem Branching.marks_eq :
    marks (condition ++ '?' :: yes ++ ':' :: no) = marks condition ++ ['?', ':'] := by
  rw [List.append_assoc, marks_append branching.front, List.cons_append, marks_cons rfl,
    marks_append branching.inner, marks_cons rfl, branching.yes, branching.no]
  rfl

/-- Behind the last `?` there is no other one. -/
theorem Branching.question_not_mem : '?' ∉ outside (yes ++ ':' :: no) := by
  have one := not_mem_outside_of_unmarked (c := '?') branching.yes rfl
  have other := not_mem_outside_of_unmarked (c := '?') branching.no rfl
  rw [outside_append branching.inner, outside_cons rfl]
  simp [one, other]

end Branching

/-! ### Segments -/

section Segments

variable {n : Nat} {text : List Char}

/-- The pieces of a text that is cut at a separator outside its brackets. -/
theorem pieces_append_cut {separator : Char} (plain : nesting separator = 0) {s : List Char}
    (closed : depth s = 0) (t : List Char) :
    pieces separator (s ++ separator :: t) = pieces separator s ++ pieces separator t := by
  induction size : s.length using Nat.strongRecOn generalizing s with
  | ind n ih =>
    by_cases outer : separator ∈ outside s
    · obtain ⟨first, later, rfl, front, free⟩ := exists_first_cut outer
      rw [depth_append, depth_cons, front, plain, Int.zero_add, Int.zero_add] at closed
      rw [List.length_append, List.length_cons] at size
      rw [List.append_assoc, List.cons_append, pieces_cut plain front free,
        pieces_cut plain front free, ih later.length (by omega) closed rfl, List.cons_append]
    · rw [pieces_cut plain closed outer, pieces_of_free plain outer]
      rfl

theorem segments_of_unmarked (unmarked : marks text = []) : segments text = [text] := by
  have question := not_mem_outside_of_unmarked (c := '?') unmarked rfl
  have colon := not_mem_outside_of_unmarked (c := ':') unmarked rfl
  rw [segments, pieces_of_free rfl question, List.flatMap_singleton, pieces_of_free rfl colon]

theorem Branching.segments_eq {condition yes no : List Char}
    (branching : Branching condition yes no) :
    segments (condition ++ '?' :: yes ++ ':' :: no) = segments condition ++ [yes, no] := by
  have one := not_mem_outside_of_unmarked (c := ':') branching.yes rfl
  have other := not_mem_outside_of_unmarked (c := ':') branching.no rfl
  rw [segments, List.append_assoc, List.cons_append, pieces_append_cut rfl branching.front,
    pieces_of_free rfl branching.question_not_mem, List.flatMap_append, List.flatMap_singleton,
    pieces_cut rfl branching.inner one, pieces_of_free rfl other]
  rfl

theorem alternated_append {parts : List (List Char)} (odd : parts.length = 2 * n + 1)
    (yes no : List Char) :
    alternated (parts ++ [yes, no]) = alternated parts ++ '?' :: yes ++ ':' :: no := by
  induction n generalizing parts with
  | zero =>
    obtain ⟨last, rfl⟩ := List.length_eq_one_iff.mp odd
    rfl
  | succ n ih =>
    match parts, odd with
    | condition :: first :: later, odd =>
      simp only [List.length_cons] at odd
      rw [List.cons_append, List.cons_append, alternated, ih (by omega), alternated]
      simp

theorem nest_append {condition : Expr} {branches : List Expr} (even : branches.length = 2 * n)
    (yes no : Expr) :
    nest condition (branches ++ [yes, no]) = .conditional (nest condition branches) yes no := by
  induction n generalizing condition branches with
  | zero =>
    obtain rfl := List.length_eq_zero_iff.mp even
    rfl
  | succ n ih =>
    match branches, even with
    | first :: second :: later, even =>
      simp only [List.length_cons] at even
      rw [List.cons_append, List.cons_append, nest, ih (by omega), nest]

/-- Where the marks alternate, one more segment than marks stand between and around them. -/
theorem segments_of_alternates (alternates : marks text = alternation n) :
    (segments text).length = 2 * n + 1 ∧ alternated (segments text) = text ∧
      ∀ part ∈ segments text, marks part = [] := by
  induction n generalizing text with
  | zero =>
    have unmarked : marks text = [] := alternates
    rw [segments_of_unmarked unmarked]
    exact ⟨rfl, rfl, by simpa using unmarked⟩
  | succ n ih =>
    obtain ⟨condition, yes, no, rfl, branching, earlier⟩ := exists_last_branch alternates
    obtain ⟨odd, again, unmarked⟩ := ih earlier
    rw [branching.segments_eq]
    refine ⟨by simp [odd]; omega, by rw [alternated_append odd, again], ?_⟩
    intro part mem
    rcases List.mem_append.mp mem with mem | mem
    · exact unmarked part mem
    · simp only [List.mem_cons, List.not_mem_nil, or_false] at mem
      rcases mem with rfl | rfl
      · exact branching.yes
      · exact branching.no

end Segments

/-! ### Reading -/

namespace Expr

variable {text : List Char} {e : Expr}

theorem readConditional_eq_ok_iff {condition yes no : List Char} :
    readConditional condition yes no = .ok e ↔
      ∃ c y n, read condition = .ok c ∧ read yes = .ok y ∧ read no = .ok n ∧
        e = .conditional c y n := by
  constructor
  · intro accepted
    obtain ⟨c, hc, accepted⟩ := bind_eq_ok_iff.mp accepted
    obtain ⟨y, hy, accepted⟩ := bind_eq_ok_iff.mp accepted
    obtain ⟨n, hn, accepted⟩ := bind_eq_ok_iff.mp accepted
    cases accepted
    exact ⟨c, y, n, hc, mapError_eq_ok_iff.mp hy, mapError_eq_ok_iff.mp hn, rfl⟩
  · rintro ⟨c, y, n, hc, hy, hn, rfl⟩
    rw [readConditional, hc, hy, hn]
    rfl

theorem read_trimStart_eq_ok_iff : read (trimStart text) = .ok e ↔ read text = .ok e := by
  rw [read_trimStart text, mapError_eq_ok_iff]

theorem read_trimEnd_eq_ok_iff : read (trimEnd text) = .ok e ↔ read text = .ok e := by
  obtain ⟨trail, trailing, split⟩ := trimEnd_split text
  have same : trim text = trim (trimEnd text) := by
    conv_lhs => rw [split, trim_append_allBlank trailing]
  rw [read_eq_ok_iff, read_eq_ok_iff, same]

end Expr

section Branching

variable {condition yes no : List Char} (branching : Branching condition yes no)

include branching

theorem Branching.back (balanced : Balanced (condition ++ '?' :: yes ++ ':' :: no)) :
    depth no = 0 := by
  have plain : nesting '?' = 0 ∧ nesting ':' = 0 := ⟨rfl, rfl⟩
  have whole := balanced.depth_eq_zero
  simp only [depth_append, depth_cons, branching.front, branching.inner, plain] at whole
  omega

/-- Blanks at the ends have no part in where the marks are. -/
theorem Branching.trimmed (back : depth no = 0) :
    Branching (trimStart condition) yes (trimEnd no) where
  front := by
    have lead := (allBlank_takeWhile condition).unbracketed.depth_eq_zero
    have whole := branching.front
    rw [← List.takeWhile_append_dropWhile (p := isBlank) (l := condition), depth_append, lead,
      Int.zero_add] at whole
    exact whole
  inner := branching.inner
  yes := branching.yes
  no := by
    obtain ⟨trail, trailing, split⟩ := trimEnd_split no
    rw [split, depth_append, trailing.unbracketed.depth_eq_zero, Int.add_zero] at back
    have unmarked := branching.no
    rw [split, marks_append back] at unmarked
    exact (List.append_eq_nil_iff.mp unmarked).1

namespace Expr

/-- The last two marks are those around the branch without marks. -/
theorem readTrimmed_branch (balanced : Balanced (condition ++ '?' :: yes ++ ':' :: no)) :
    readTrimmed (readWithin (condition ++ '?' :: yes ++ ':' :: no)) =
      readConditional condition yes no := by
  have back := branching.back balanced
  have middle : depth (yes ++ ':' :: no) = 0 := by
    rw [depth_append, depth_cons, branching.inner, back]
    rfl
  have question : lastOccurrence? ['?'] (condition ++ '?' :: yes ++ ':' :: no) =
      some (byteLength condition) := by
    rw [List.append_assoc]
    exact lastOccurrence?_mark rfl condition middle branching.question_not_mem
  have colon : lastOccurrence? [':'] (condition ++ '?' :: yes ++ ':' :: no) =
      some (byteLength (condition ++ '?' :: yes)) :=
    lastOccurrence?_mark rfl _ back (not_mem_outside_of_unmarked branching.no rfl)
  have reaches : Reaches (condition ++ '?' :: yes ++ ':' :: no) .conditional := by
    refine ⟨by decide, ?_⟩
    intro level looser
    cases looser
  exact readTrimmed_of_level balanced (by simp) reaches (conditional?_eq rfl question colon)

/-- A text cut at its last two marks is read as the condition of its parts. -/
theorem read_branch_iff {e : Expr} :
    read (condition ++ '?' :: yes ++ ':' :: no) = .ok e ↔
      ∃ c y n, read condition = .ok c ∧ read yes = .ok y ∧ read no = .ok n ∧
        e = .conditional c y n := by
  by_cases balanced : Balanced (condition ++ '?' :: yes ++ ':' :: no)
  · have mid : Trimmed ('?' :: yes ++ [':']) := by
      refine ⟨by rintro c ⟨⟩; decide, ?_⟩
      rw [List.getLast?_append_of_ne_nil _ (by simp)]
      rintro c ⟨⟩
      decide
    have around := trim_around mid (by simp) condition no
    have split : ∀ s t : List Char,
        s ++ ('?' :: yes ++ [':']) ++ t = s ++ '?' :: yes ++ ':' :: t := by simp
    rw [split, split] at around
    have inside := balanced_trim_iff.mpr balanced
    rw [around] at inside
    rw [read_eq_ok_iff, around,
      readTrimmed_branch (branching.trimmed (branching.back balanced)) inside,
      readConditional_eq_ok_iff]
    simp only [read_trimStart_eq_ok_iff, read_trimEnd_eq_ok_iff]
  · -- Neither the text nor all of its parts are read.
    constructor
    · intro accepted
      exact absurd (balanced_of_accepted accepted) balanced
    · rintro ⟨c, y, n, hc, hy, hn, -⟩
      have question : Balanced ['?'] := rfl
      have colon : Balanced [':'] := rfl
      have parts := (balanced_of_accepted hc).append (question.append
        ((balanced_of_accepted hy).append (colon.append (balanced_of_accepted hn))))
      exact absurd (by simpa using parts) balanced

end Expr

end Branching

/-! ### The marks of an accepted text -/

theorem not_mem_outside_behind {c : Char} {s t text : List Char} (plain : nesting c = 0)
    (split : text = s ++ c :: t) (found : lastOccurrence? [c] text = some (byteLength s)) :
    c ∉ outside t := by
  obtain ⟨s', t', split', bytes, closed, absent⟩ :=
    exists_of_lastOccurrence?_eq_some (by simp) found
  have same : s ++ c :: t = s' ++ c :: t' := by
    rw [← split, split']
    simp
  obtain ⟨-, behind⟩ := append_inj_of_byteLength same bytes
  obtain rfl := (List.cons.inj behind).2
  rw [List.singleton_append, depth_cons, plain, Int.zero_add] at closed
  exact not_mem_outside_of_absent closed absent

/-- Where no condition is found there are no marks. -/
theorem Expr.unmarked_of_passes {text : List Char} (balanced : Balanced text)
    (passes : Passes text .conditional) : marks text = [] := by
  obtain ⟨question, colon⟩ := passes_conditional_iff.mp passes
  exact unmarked_of_not_mem (not_mem_outside_of_absent balanced.depth_eq_zero question)
    (not_mem_outside_of_absent balanced.depth_eq_zero colon)

/-- The level of conditions is looser than any other. -/
theorem Expr.passes_conditional_of_reaches {text : List Char} {level : Level}
    (reaches : Reaches text level) (other : level ≠ .conditional) : Passes text .conditional := by
  refine reaches.2 .conditional ?_
  have apart : (Level.conditional != level) = true := bne_iff_ne.mpr other.symm
  rw [Level.looser, Level.table, List.takeWhile_cons_of_pos (p := (· != level)) apart]
  exact List.mem_cons_self

/-- The marks that alternate with none of the first kind are none. -/
theorem unmarked_of_alternates {n : Nat} {text : List Char}
    (alternates : marks text = alternation n) (free : '?' ∉ outside text) : marks text = [] := by
  cases n with
  | zero => exact alternates
  | succ n =>
    have mem : '?' ∈ marks text := by
      rw [alternates, alternation_succ]
      simp
    exact absurd (List.mem_of_mem_filter mem) free

namespace Expr

section Parts

variable {text : List Char} (parts : ∀ part : List Char, part.length < text.length →
  ∀ e, read part = .ok e → ∃ n, marks part = alternation n)

include parts

/-- The marks of an accepted text alternate when those of its parts do. -/
theorem alternates_of_answers {e : Expr} (answers : Answers text (.ok e)) :
    ∃ n, marks text = alternation n := by
  have unmarked : Balanced text → Passes text .conditional → ∃ n, marks text = alternation n :=
    fun balanced passes => ⟨0, unmarked_of_passes balanced passes⟩
  generalize answer_eq : (Except.ok e : Except Stop Expr) = answer at answers
  cases answers with
  | unbalanced _ => cases answer_eq
  | empty _ => cases answer_eq
  | lopsided _ => cases answer_eq
  | @conditional condition yes no _ split question colon =>
    obtain ⟨c, y, n, hc, hy, hn, -⟩ := readConditional_eq_ok_iff.mp answer_eq.symm
    have lengths := congrArg List.length split
    simp only [List.length_append, List.length_cons] at lengths
    have inner := (balanced_of_accepted hy).depth_eq_zero
    have behind : '?' ∉ outside (yes ++ ':' :: no) :=
      not_mem_outside_behind rfl (by simpa using split) question
    rw [outside_append inner, outside_cons rfl] at behind
    obtain ⟨m, alternates⟩ := parts yes (by omega) y hy
    have branching : Branching condition yes no :=
      { front := (balanced_of_accepted hc).depth_eq_zero
        inner := inner
        yes := unmarked_of_alternates alternates fun mem => behind (List.mem_append_left _ mem)
        no := unmarked_of_not_mem
          (fun mem => behind (List.mem_append_right _ (List.mem_cons_of_mem _ mem)))
          (not_mem_outside_behind rfl split colon) }
    obtain ⟨k, earlier⟩ := parts condition (by omega) c hc
    exact ⟨k + 1, by rw [split, branching.marks_eq, earlier, alternation_succ]⟩
  | binary balanced reaches _ _ =>
    exact unmarked balanced (passes_conditional_of_reaches reaches nofun)
  | unary balanced reaches _ =>
    exact unmarked balanced (passes_conditional_of_reaches reaches nofun)
  | group balanced passes _ => exact unmarked balanced (passes _ (by decide))
  | unopened _ _ _ => cases answer_eq
  | array balanced passes _ _ => exact unmarked balanced (passes _ (by decide))
  | index balanced passes _ _ _ => exact unmarked balanced (passes _ (by decide))
  | call balanced passes _ _ => exact unmarked balanced (passes _ (by decide))
  | unnamed _ _ => cases answer_eq
  | atom balanced passes => exact unmarked balanced (passes _ (by decide))

end Parts

/-- The marks of every accepted text alternate. -/
theorem alternates_of_accepted {text : List Char} {e : Expr} (accepted : read text = .ok e) :
    ∃ n, marks text = alternation n := by
  induction size : text.length using Nat.strongRecOn generalizing text e with
  | ind n ih =>
    obtain ⟨answer, answers, read_eq⟩ := answers_of_read text
    rw [← marks_trim (balanced_of_accepted accepted)]
    rw [read_eq, mapError_eq_ok_iff] at accepted
    subst accepted
    refine alternates_of_answers (fun part shorter e accepted => ?_) answers
    exact ih part.length (by have := length_trim_le text; omega) accepted rfl

/-! ### Chains of any length -/

/-- What is related to a list with two more at its end ends with two more. -/
theorem exists_of_forall₂_append {α β : Type} {R : α → β → Prop} {xs : List α} {x x' : α}
    {z : β} {zs : List β} (nonempty : xs ≠ []) (all : List.Forall₂ R (xs ++ [x, x']) (z :: zs)) :
    ∃ us u u', zs = us ++ [u, u'] ∧ List.Forall₂ R xs (z :: us) ∧ R x u ∧ R x' u' := by
  have front := List.forall₂_take xs.length all
  have behind := List.forall₂_drop xs.length all
  rw [List.take_left] at front
  rw [List.drop_left] at behind
  obtain ⟨u, later, first, behind, last⟩ := List.forall₂_cons_left_iff.mp behind
  obtain ⟨u', none, second, empty, rfl⟩ := List.forall₂_cons_left_iff.mp behind
  obtain rfl := List.forall₂_nil_left_iff.mp empty
  obtain ⟨n, length⟩ := Nat.exists_eq_succ_of_ne_zero (List.length_eq_zero_iff.not.mpr nonempty)
  rw [length, List.take_succ_cons] at front
  rw [length, List.drop_succ_cons] at last
  refine ⟨zs.take n, u, u', ?_, front, first, second⟩
  rw [← last, List.take_append_drop]

/-- Where the marks alternate a text is read by its segments, one condition around another. -/
theorem read_segments {k : Nat} {text : List Char} (alternates : marks text = alternation k)
    (e : Expr) :
    read text = .ok e ↔ ∃ condition branches,
      List.Forall₂ (fun part tree => read part = .ok tree) (segments text)
        (condition :: branches) ∧ e = nest condition branches := by
  induction k generalizing text e with
  | zero =>
    rw [segments_of_unmarked alternates]
    constructor
    · intro accepted
      exact ⟨e, [], .cons accepted .nil, rfl⟩
    · rintro ⟨condition, branches, all, rfl⟩
      obtain ⟨accepted, none⟩ := List.forall₂_cons.mp all
      obtain rfl := List.forall₂_nil_left_iff.mp none
      exact accepted
  | succ k ih =>
    obtain ⟨first, yes, no, rfl, branching, earlier⟩ := exists_last_branch alternates
    have odd := (segments_of_alternates earlier).1
    have nonempty : segments first ≠ [] := List.length_pos_iff.mp (by omega)
    rw [read_branch_iff branching, branching.segments_eq]
    constructor
    · rintro ⟨c, y, n, hc, hy, hn, rfl⟩
      obtain ⟨condition, branches, all, rfl⟩ := (ih earlier c).mp hc
      have even := all.length_eq
      rw [odd, List.length_cons] at even
      refine ⟨condition, branches ++ [y, n], ?_, (nest_append (n := k) (by omega) y n).symm⟩
      exact List.rel_append all (.cons hy (.cons hn .nil))
    · rintro ⟨condition, branches, all, rfl⟩
      obtain ⟨inner, y, n, rfl, front, hy, hn⟩ := exists_of_forall₂_append nonempty all
      have even := front.length_eq
      rw [odd, List.length_cons] at even
      exact ⟨nest condition inner, y, n, (ih earlier _).mpr ⟨condition, inner, front, rfl⟩, hy, hn,
        nest_append (n := k) (by omega) y n⟩

/-- Conditions nest to the left. A text is read exactly when its marks are `?` and `:` in turn
and every segment between them is read, and then as the condition of the first three segments
with two more branches behind it each time; any other text with marks is rejected. Where the
marks alternate the segments are what stands between them, free of marks. -/
theorem read_eq_ok_iff_nest (text : List Char) :
    (∀ e, read text = .ok e ↔ (∃ n, marks text = alternation n) ∧ ∃ condition branches,
      List.Forall₂ (fun part tree => read part = .ok tree) (segments text)
        (condition :: branches) ∧ e = nest condition branches) ∧
    ((∀ n, marks text ≠ alternation n) →
      ∃ rejection, read text = .error (.rejected rejection)) ∧
    (∀ n, marks text = alternation n →
      (segments text).length = 2 * n + 1 ∧ alternated (segments text) = text ∧
        ∀ part ∈ segments text, marks part = []) := by
  refine ⟨?_, ?_, fun _ => segments_of_alternates⟩
  · intro e
    constructor
    · intro accepted
      obtain ⟨n, alternates⟩ := alternates_of_accepted accepted
      exact ⟨⟨n, alternates⟩, (read_segments alternates e).mp accepted⟩
    · rintro ⟨⟨n, alternates⟩, parts⟩
      exact (read_segments alternates e).mpr parts
  · intro other
    refine exists_rejection fun e accepted => ?_
    obtain ⟨n, alternates⟩ := alternates_of_accepted accepted
    exact other n alternates

/-- Two conditions, one behind the other, and two `?` in front of two `:`. -/
theorem read_eq_ok_iff_nest_samples :
    read "a?b:c?d:e".toList = .ok (.conditional
      (.conditional (.argument "a") (.argument "b") (.argument "c"))
      (.argument "d") (.argument "e")) ∧
    ∃ rejection, read "a?b?c:d:e".toList = .error (.rejected rejection) := by
  constructor
  · refine ((read_eq_ok_iff_nest _).1 _).mpr ⟨⟨2, rfl⟩, .argument "a",
      [.argument "b", .argument "c", .argument "d", .argument "e"], ?_, rfl⟩
    have letters : segments "a?b:c?d:e".toList = [['a'], ['b'], ['c'], ['d'], ['e']] := rfl
    rw [letters]
    exact .cons (read_argument rfl) (.cons (read_argument rfl) (.cons (read_argument rfl)
      (.cons (read_argument rfl) (.cons (read_argument rfl) .nil))))
  · refine (read_eq_ok_iff_nest _).2.1 fun n alternates => ?_
    have found : marks "a?b?c:d:e".toList = ['?', '?', ':', ':'] := rfl
    rw [found] at alternates
    cases n with
    | zero => cases alternates
    | succ n => cases n <;> cases alternates

end Expr

end SelectionFormula
