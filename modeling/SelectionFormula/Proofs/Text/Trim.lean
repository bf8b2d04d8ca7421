import Mathlib.Data.List.Basic
import Mathlib.Data.List.TakeWhile
import SelectionFormula.Text.Blank

/-!
What trimming leaves of a text.

A text is blanks, its trimmed form and blanks (`trim_split`), and blanks around a
text never change its trimmed form (`trim_pad`). The trimmed form neither begins
nor ends with a blank, and a text that does neither is its own trimmed form
(`trim_eq_self`). Blanks put in front of a text that is not blank stand in front of its own
(`takeWhile_pad`).
-/

namespace SelectionFormula.Text

/-- Nothing but blanks. -/
def AllBlank (text : List Char) : Prop :=
  ∀ c ∈ text, isBlank c = true

/-- A text that neither begins nor ends with a blank. -/
structure Trimmed (text : List Char) : Prop where
  head : ∀ c ∈ text.head?, isBlank c = false
  last : ∀ c ∈ text.getLast?, isBlank c = false

theorem allBlank_nil : AllBlank [] := by
  simp [AllBlank]

theorem allBlank_space : AllBlank [' '] := by
  intro c mem
  cases List.mem_singleton.mp mem
  decide

theorem allBlank_takeWhile (text : List Char) : AllBlank (text.takeWhile isBlank) :=
  fun _ mem => List.mem_takeWhile_imp mem

theorem AllBlank.append {s t : List Char} (hs : AllBlank s) (ht : AllBlank t) :
    AllBlank (s ++ t) := by
  intro c mem
  rcases List.mem_append.mp mem with mem | mem
  · exact hs c mem
  · exact ht c mem

theorem AllBlank.reverse {s : List Char} (blank : AllBlank s) : AllBlank s.reverse :=
  fun c mem => blank c (List.mem_reverse.mp mem)

/-! ### One end -/

theorem trimStart_append_of_allBlank {lead : List Char} (blank : AllBlank lead)
    (text : List Char) : trimStart (lead ++ text) = trimStart text := by
  induction lead with
  | nil => rfl
  | cons c lead ih =>
    have head : isBlank c = true := blank c List.mem_cons_self
    rw [List.cons_append, trimStart, List.dropWhile_cons_of_pos head]
    exact ih fun d mem => blank d (List.mem_cons_of_mem _ mem)

theorem trimEnd_append_of_allBlank {trail : List Char} (blank : AllBlank trail)
    (text : List Char) : trimEnd (text ++ trail) = trimEnd text := by
  rw [trimEnd, List.reverse_append]
  exact congrArg List.reverse (trimStart_append_of_allBlank blank.reverse text.reverse)

theorem trimEnd_split (text : List Char) :
    ∃ trail, AllBlank trail ∧ text = trimEnd text ++ trail := by
  refine ⟨(text.reverse.takeWhile isBlank).reverse, (allBlank_takeWhile _).reverse, ?_⟩
  rw [trimEnd, ← List.reverse_append, List.takeWhile_append_dropWhile, List.reverse_reverse]

theorem trimStart_head (text : List Char) : ∀ c ∈ (trimStart text).head?, isBlank c = false := by
  intro c mem
  have := List.head?_dropWhile_not isBlank text
  rw [trimStart] at mem
  rw [Option.mem_def.mp mem] at this
  simpa using this

theorem trimEnd_last (text : List Char) : ∀ c ∈ (trimEnd text).getLast?, isBlank c = false := by
  intro c mem
  rw [trimEnd, List.getLast?_reverse] at mem
  exact trimStart_head text.reverse c mem

theorem trimStart_eq_self {text : List Char} (head : ∀ c ∈ text.head?, isBlank c = false) :
    trimStart text = text := by
  cases text with
  | nil => rfl
  | cons c text =>
    have : isBlank c = false := head c rfl
    rw [trimStart, List.dropWhile_cons_of_neg (by simp [this])]

theorem trimEnd_eq_self {text : List Char} (last : ∀ c ∈ text.getLast?, isBlank c = false) :
    trimEnd text = text := by
  have : trimStart text.reverse = text.reverse :=
    trimStart_eq_self (by rwa [List.head?_reverse])
  rw [trimEnd, ← trimStart, this, List.reverse_reverse]

/-! ### Both ends -/

theorem trim_eq_self {text : List Char} (trimmed : Trimmed text) : trim text = text := by
  rw [trim, trimStart_eq_self trimmed.head, trimEnd_eq_self trimmed.last]

theorem trimmed_trim (text : List Char) : Trimmed (trim text) where
  head := by
    intro c mem
    obtain ⟨trail, -, split⟩ := trimEnd_split (trimStart text)
    refine trimStart_head text c ?_
    rw [split, List.head?_append]
    simp [show (trimEnd (trimStart text)).head? = some c from mem]
  last := trimEnd_last _

/-- A text is blanks, its trimmed form and blanks. -/
theorem trim_split (text : List Char) :
    ∃ trail, AllBlank trail ∧ text = text.takeWhile isBlank ++ trim text ++ trail := by
  obtain ⟨trail, blank, split⟩ := trimEnd_split (trimStart text)
  refine ⟨trail, blank, ?_⟩
  rw [List.append_assoc, trim, ← split, trimStart, List.takeWhile_append_dropWhile]

theorem trimEnd_of_allBlank {text : List Char} (blank : AllBlank text) : trimEnd text = [] :=
  trimEnd_append_of_allBlank blank []

/-- Blanks around a text do not change its trimmed form. -/
theorem trim_pad {lead trail : List Char} (hl : AllBlank lead) (ht : AllBlank trail)
    (text : List Char) : trim (lead ++ text ++ trail) = trim text := by
  rw [trim, List.append_assoc, trimStart_append_of_allBlank hl]
  by_cases blank : AllBlank text
  · have : trimStart (text ++ trail) = trimStart trail := trimStart_append_of_allBlank blank trail
    rw [this, trim, ← List.append_nil text, trimStart_append_of_allBlank blank]
    exact trimEnd_of_allBlank fun c mem => ht c ((List.dropWhile_sublist _).mem mem)
  · have : trimStart (text ++ trail) = trimStart text ++ trail := by
      rw [trimStart, List.dropWhile_append, if_neg, trimStart]
      intro empty
      have nil := List.isEmpty_iff.mp empty
      exact blank (List.dropWhile_eq_nil_iff.mp nil)
    rw [this, trim, trimEnd_append_of_allBlank ht]

theorem trim_append_allBlank {trail : List Char} (blank : AllBlank trail) (text : List Char) :
    trim (text ++ trail) = trim text := by
  simpa using trim_pad allBlank_nil blank text

/-! ### The blanks in front -/

theorem takeWhile_of_head {text : List Char} (head : ∀ c ∈ text.head?, isBlank c = false) :
    text.takeWhile isBlank = [] := by
  cases text with
  | nil => rfl
  | cons c text =>
    have : isBlank c = false := head c rfl
    rw [List.takeWhile_cons_of_neg (by simp [this])]

/-- What is behind a character that is no blank has no part in the blanks in front. -/
theorem takeWhile_append_cons {c : Char} (firm : isBlank c = false) (s t : List Char) :
    (s ++ c :: t).takeWhile isBlank = s.takeWhile isBlank := by
  rw [List.takeWhile_append]
  split
  · next all =>
    rw [List.takeWhile_cons_of_neg (by simp [firm]), List.append_nil]
    exact (List.takeWhile_prefix isBlank).eq_of_length all |>.symm
  · rfl

/-- More blanks in front of a text that is not blank. -/
theorem takeWhile_pad {lead : List Char} (leading : AllBlank lead) {text : List Char}
    (nonblank : trim text ≠ []) (trail : List Char) :
    (lead ++ text ++ trail).takeWhile isBlank = lead ++ text.takeWhile isBlank := by
  rw [List.append_assoc, List.takeWhile_append_of_pos leading, List.takeWhile_append, if_neg]
  intro all
  refine nonblank ?_
  have same := (List.takeWhile_prefix isBlank).eq_of_length all
  rw [trim, trimStart, List.dropWhile_eq_nil_iff.mpr fun c mem => ?_]
  · rfl
  · rw [← same] at mem
    exact List.mem_takeWhile_imp mem

/-- Trimming a text whose middle has no blanks at its ends trims the outer ends. -/
theorem trim_around {mid : List Char} (trimmed : Trimmed mid) (nonempty : mid ≠ [])
    (s t : List Char) : trim (s ++ mid ++ t) = trimStart s ++ mid ++ trimEnd t := by
  obtain ⟨trail, blank, split⟩ := trimEnd_split t
  have front : s = s.takeWhile isBlank ++ trimStart s := List.takeWhile_append_dropWhile.symm
  have padded : s ++ mid ++ t =
      s.takeWhile isBlank ++ (trimStart s ++ mid ++ trimEnd t) ++ trail := by
    calc
      s ++ mid ++ t = (s.takeWhile isBlank ++ trimStart s) ++ mid ++ (trimEnd t ++ trail) := by
        rw [← front, ← split]
      _ = _ := by simp only [List.append_assoc]
  rw [padded, trim_pad (allBlank_takeWhile s) blank]
  refine trim_eq_self ⟨?_, ?_⟩
  · intro c head
    cases start : trimStart s with
    | nil =>
      rw [start, List.nil_append, List.head?_append_of_ne_nil _ nonempty] at head
      exact trimmed.head c head
    | cons d rest =>
      refine trimStart_head s c ?_
      rw [start] at head ⊢
      exact head
  · intro c last
    by_cases empty : trimEnd t = []
    · rw [empty, List.append_nil, List.getLast?_append_of_ne_nil _ nonempty] at last
      exact trimmed.last c last
    · rw [List.getLast?_append_of_ne_nil _ empty] at last
      exact trimEnd_last t c last

end SelectionFormula.Text
