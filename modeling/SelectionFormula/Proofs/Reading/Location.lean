import Mathlib
import SelectionFormula.Formula
import SelectionFormula.Proofs.Text.Trim
import SelectionFormula.Proofs.Reading.Answer

/-!
Where a rejection points.

Reading a part reports an offset into the part, and every form moves it by what
stands in front of the part. So by induction on the length of the text a reading
stops only with a rejection, at an offset between two characters of the text
(`located_read`); it never asks for a part outside its text. A formula's
rejection counts the characters in front of that offset (`stop_locates`).
-/

namespace SelectionFormula

open Text

/-- An offset between two characters of a text, or at one of its ends. -/
def Boundary (text : List Char) (offset : Nat) : Prop :=
  ∃ s t, text = s ++ t ∧ offset = byteLength s

/-- An answer that, when it stops, rejects at a boundary of the text. -/
def Located {α : Type} (text : List Char) (answer : Except Stop α) : Prop :=
  ∀ stop, answer = .error stop → ∃ rejection, stop = .rejected rejection ∧
    Boundary text rejection.location

variable {α β : Type} {text s t : List Char}

theorem boundary_zero (text : List Char) : Boundary text 0 :=
  ⟨[], text, rfl, rfl⟩

/-- A boundary of a part is one of the text, moved by what is in front. -/
theorem Boundary.within {mid : List Char} {offset : Nat} (boundary : Boundary mid offset)
    (split : text = s ++ mid ++ t) : Boundary text (offset + byteLength s) := by
  obtain ⟨u, v, rfl, rfl⟩ := boundary
  exact ⟨s ++ u, v ++ t, by simp [split], by rw [byteLength_append, Nat.add_comm]⟩

theorem located_ok (text : List Char) (a : α) : Located text (.ok a) := by
  intro stop stopped
  cases stopped

theorem located_reject {offset : Nat} (boundary : Boundary text offset) (cause : Cause) :
    Located text (reject cause offset : Except Stop α) := by
  rintro stop ⟨⟩
  exact ⟨⟨cause, offset⟩, rfl, boundary⟩

theorem Located.bind {answer : Except Stop α} {next : α → Except Stop β}
    (located : Located text answer) (later : ∀ a, Located text (next a)) :
    Located text (answer >>= next) := by
  intro stop stopped
  cases answer with
  | ok a => exact later a stop stopped
  | error first =>
    cases stopped
    exact located stop rfl

theorem Located.map {answer : Except Stop α} (located : Located text answer) (f : α → β) :
    Located text (answer.map f) := by
  intro stop stopped
  cases answer with
  | ok a => cases stopped
  | error first =>
    cases stopped
    exact located stop rfl

/-- What is located in a part is located in the text, moved by what is in front. -/
theorem Located.within {mid : List Char} {answer : Except Stop α} (located : Located mid answer)
    (split : text = s ++ mid ++ t) : Located text (answer.mapError (·.shifted (byteLength s))) := by
  intro stop stopped
  cases answer with
  | ok a => cases stopped
  | error first =>
    cases stopped
    obtain ⟨rejection, rfl, boundary⟩ := located first rfl
    exact ⟨rejection.shifted (byteLength s), rfl, boundary.within split⟩

/-! ### The nesting check -/

theorem faultFrom?_boundary {pending : List (Bracket × Nat)} {fault offset : Nat}
    {text : List Char} (found : faultFrom? pending offset text = some fault) :
    fault ∈ pending.map (·.2) ∨ ∃ s t, text = s ++ t ∧ fault = offset + byteLength s := by
  -- A step moves the offset behind its character, and an opener leaves its own offset behind.
  have step : ∀ (c : Char) (offset : Nat) (text : List Char),
      (∃ s t, text = s ++ t ∧ fault = offset + c.utf8Size + byteLength s) →
      ∃ s t, c :: text = s ++ t ∧ fault = offset + byteLength s := by
    rintro c offset text ⟨s, t, rfl, at_fault⟩
    exact ⟨c :: s, t, rfl, by rw [at_fault, byteLength_cons, Nat.add_assoc]⟩
  have here : ∀ (offset : Nat) (text : List Char), some offset = some fault →
      ∃ s t, text = s ++ t ∧ fault = offset + byteLength s := by
    rintro offset text ⟨⟩
    exact ⟨[], text, rfl, rfl⟩
  fun_induction faultFrom? pending offset text with
  | case1 pending offset =>
    obtain ⟨last, mem, rfl⟩ := Option.map_eq_some_iff.mp found
    exact .inl (List.mem_map_of_mem (List.mem_of_getLast? mem))
  | case2 pending offset c text mark ih => exact (ih found).imp_right (step c offset text)
  | case3 pending offset c text bracket mark ih =>
    rcases ih found with mem | later
    · rcases List.mem_cons.mp mem with rfl | mem
      · exact .inr (here _ _ rfl)
      · exact .inl mem
    · exact .inr (step c offset text later)
  | case4 offset c text bracket start outer mark ih =>
    rcases ih found with mem | later
    · exact .inl (List.mem_cons_of_mem _ mem)
    · exact .inr (step c offset text later)
  | case5 offset c text bracket mark innermost start outer other => exact .inr (here _ _ found)
  | case6 offset c text bracket mark => exact .inr (here _ _ found)

theorem firstFault?_boundary {fault : Nat} (found : firstFault? text = some fault) :
    Boundary text fault := by
  rcases faultFrom?_boundary found with mem | ⟨s, t, split, at_fault⟩
  · simp at mem
  · exact ⟨s, t, split, by simpa using at_fault⟩

/-! ### The readings -/

namespace Expr

variable (parts : ∀ part : List Char, part.length < text.length → Located part (read part))

include parts

theorem located_front (split : text = s ++ t) (shorter : t ≠ []) : Located text (read s) := by
  have located := parts s (by
    have := List.length_pos_iff.mpr shorter
    rw [split, List.length_append]
    omega)
  have within := @Located.within _ text [] t s _ located (by simpa using split)
  rwa [byteLength_nil, mapError_shifted_zero] at within

theorem located_part {mid : List Char} (split : text = s ++ mid ++ t) (shorter : s ≠ []) :
    Located text ((read mid).mapError (·.shifted (byteLength s))) := by
  refine (parts mid ?_).within split
  have := List.length_pos_iff.mpr shorter
  rw [split, List.length_append, List.length_append]
  omega

theorem located_readEach {first : List Char} {later : List (List Char)}
    (split : text = s ++ joined ',' first later ++ t) (shorter : s ≠ []) :
    Located text (readEach (byteLength s) (first :: later)) := by
  induction later generalizing first s with
  | nil =>
    rw [joined_nil] at split
    exact (located_part parts split shorter).bind fun item =>
      (located_ok text []).bind fun items => located_ok text (item :: items)
  | cons next later ih =>
    have cut : text = s ++ first ++ (',' :: joined ',' next later ++ t) := by simpa using split
    have rest : text = (s ++ first ++ [',']) ++ joined ',' next later ++ t := by
      simpa using split
    have front : byteLength (s ++ first ++ [',']) = byteLength s + byteLength first + 1 := by
      simp only [byteLength_append, byteLength_cons, byteLength_nil]
      rfl
    have others := ih rest (by simp)
    rw [front] at others
    exact (located_part parts cut shorter).bind fun item =>
      others.bind fun items => located_ok text (item :: items)

theorem located_readList {list : List Char} (split : text = s ++ list ++ t) (shorter : s ≠ []) :
    Located text (readList (byteLength s) list) := by
  unfold readList
  split
  · exact located_ok text []
  · exact located_readEach parts (by rwa [piecesFrom_joined]) shorter

/-- Every case of a reading is located when the readings of shorter texts are. -/
theorem located_of_answers {answer : Except Stop Expr} (answers : Answers text answer) :
    Located text answer := by
  cases answers with
  | unbalanced fault => exact located_reject (firstFault?_boundary fault) _
  | empty _ => exact located_reject (boundary_zero text) _
  | lopsided _ => exact located_reject (boundary_zero text) _
  | @conditional condition yes no _ split _ _ =>
    exact (located_front parts (by simpa using split) (by simp)).bind fun c =>
      (@located_part text (condition ++ ['?']) (':' :: no) parts yes
        (by simpa using split) (by simp)).bind fun y =>
      (@located_part text (condition ++ '?' :: yes ++ [':']) [] parts no
        (by simpa using split) (by simp)).bind fun n =>
      located_ok text (Expr.conditional c y n)
  | @binary op left right _ _ split _ =>
    exact (@located_front text left (op.symbol.toList ++ right) parts
        (by simpa using split) (by simp [op.symbol_ne_nil])).bind fun l =>
      (@located_part text (left ++ op.symbol.toList) [] parts right
        (by simpa using split) (by simp [op.symbol_ne_nil])).bind fun r =>
      located_ok text (Expr.binary op l r)
  | @unary op operand _ _ split =>
    exact (@located_part text op.symbol.toList [] parts operand
      (by simpa using split) op.symbol_ne_nil).map (Expr.unary op)
  | @group inner _ _ split =>
    exact @located_part text ['('] [')'] parts inner (by simpa using split) (by simp)
  | unopened _ _ last =>
    obtain ⟨s, split⟩ := List.getLast?_eq_some_iff.mp last
    refine located_reject ?_ _
    rw [byteLength_sub_one rfl split]
    exact ⟨s, [']'], split, rfl⟩
  | @array list _ _ split _ =>
    exact (@located_readList text ['['] [']'] parts list
      (by simpa using split) (by simp)).map Expr.array
  | @index items position _ _ split nonempty _ =>
    exact (@located_front text items ('[' :: position ++ [']']) parts
        (by simpa using split) (by simp)).bind fun a =>
      (@located_part text (items ++ ['[']) [']'] parts position
        (by simpa using split) (by simp)).bind fun p =>
      located_ok text (Expr.index a p)
  | @call name arguments _ _ split _ =>
    refine (@located_readList text (name ++ ['(']) [')'] parts arguments
      (by simpa using split) (by simp)).bind fun es => ?_
    split
    · exact located_reject (boundary_zero text) _
    · split
      · exact located_ok text _
      · exact located_reject (boundary_zero text) _
  | unnamed _ _ => exact located_reject (boundary_zero text) _
  | atom _ _ =>
    unfold Form.atom
    split
    · exact located_ok text _
    · split
      · exact located_ok text _
      · exact located_reject (boundary_zero text) _

omit parts

/-- A reading stops only with a rejection, at a boundary of the text. -/
theorem located_read (text : List Char) : Located text (read text) := by
  induction size : text.length using Nat.strongRecOn generalizing text with
  | ind n ih =>
    obtain ⟨answer, answers, read_eq⟩ := answers_of_read text
    obtain ⟨trail, -, split⟩ := trim_split text
    have trimmed : Located (trim text) answer :=
      located_of_answers (fun part shorter => ih part.length
        (by have := length_trim_le text; omega) part rfl) answers
    rw [read_eq]
    exact trimmed.within split

/-- What is not read is rejected. -/
theorem exists_rejection {text : List Char} (never : ∀ e, read text ≠ .ok e) :
    ∃ rejection, read text = .error (.rejected rejection) := by
  cases outcome : read text with
  | ok e => exact absurd outcome (never e)
  | error stop =>
    obtain ⟨rejection, rfl, -⟩ := located_read text stop outcome
    exact ⟨rejection, rfl⟩

end Expr

theorem byteLength_toList (text : String) : byteLength text.toList = text.utf8ByteSize := by
  suffices ∀ chars, byteLength chars = (String.ofList chars).utf8ByteSize by
    simpa using this text.toList
  intro chars
  induction chars with
  | nil => rfl
  | cons c chars ih =>
    rw [← List.singleton_append, String.ofList_append, String.utf8ByteSize_append, ← ih,
      ← String.singleton_eq_ofList, String.utf8ByteSize_singleton]
    rfl

/-- A reading of a text stops only with a rejection at the end of some of its first
characters, and the formula's rejection counts those characters. -/
theorem stop_locates {text : String} {stop : Stop} (stopped : Expr.read text.toList = .error stop) :
    ∃ cause before after, text.toList = before ++ after ∧
      stop = .rejected ⟨cause, byteLength before⟩ ∧
      byteLength before ≤ text.utf8ByteSize ∧
      Formula.parse text = .error ⟨cause, before.length⟩ ∧
      before.length ≤ text.length ∧
      (⟨cause, before.length⟩ : Rejection).column ≤ text.length + 1 := by
  obtain ⟨⟨cause, offset⟩, rfl, before, after, split, at_offset⟩ :=
    Expr.located_read text.toList stop stopped
  change offset = byteLength before at at_offset
  subst at_offset
  have length : before.length ≤ text.length := by
    rw [← String.length_toList, split, List.length_append]
    omega
  have bytes : byteLength before ≤ text.utf8ByteSize := by
    rw [← byteLength_toList, split, byteLength_append]
    omega
  refine ⟨cause, before, after, split, rfl, bytes, ?_, length, Nat.succ_le_succ length⟩
  rw [Formula.parse, stopped]
  simp only [Stop.rejectionIn, split, charsBefore_append]

/-- Behind a blank of three bytes the offset in bytes and the one in characters differ. -/
theorem stop_locates_wide_blank :
    Expr.read "\u2003x + (#)".toList = .error (.rejected ⟨.unparsableToken, 8⟩) ∧
    ∃ cause before after, "\u2003x + (#)".toList = before ++ after ∧
      Stop.rejected ⟨.unparsableToken, 8⟩ = .rejected ⟨cause, byteLength before⟩ ∧
      byteLength before ≤ "\u2003x + (#)".utf8ByteSize ∧
      Formula.parse "\u2003x + (#)" = .error ⟨cause, before.length⟩ ∧
      before.length ≤ "\u2003x + (#)".length ∧
      (⟨cause, before.length⟩ : Rejection).column ≤ "\u2003x + (#)".length + 1 := by
  have stopped : Expr.read "\u2003x + (#)".toList = .error (.rejected ⟨.unparsableToken, 8⟩) := by
    cbv
  exact ⟨stopped, stop_locates stopped⟩

end SelectionFormula
