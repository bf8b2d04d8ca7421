/-!
Byte offsets into a text.

A text is a list of characters; an offset counts the bytes of the UTF-8 encoding
of the characters before it. `part?` cuts out what lies between two offsets and
answers only when both lie between characters and in order, so a wrong cut shows
as `none` and not as some other text.
-/

namespace SelectionFormula.Text

/-- How many bytes a text takes. -/
def byteLength : List Char → Nat
  | [] => 0
  | c :: text => c.utf8Size + byteLength text

@[simp] theorem byteLength_nil : byteLength [] = 0 := rfl

@[simp] theorem byteLength_cons (c : Char) (text : List Char) :
    byteLength (c :: text) = c.utf8Size + byteLength text := rfl

@[simp] theorem byteLength_append (s t : List Char) :
    byteLength (s ++ t) = byteLength s + byteLength t := by
  induction s with
  | nil => simp
  | cons c s ih => simp [ih, Nat.add_assoc]

/-- The text from an offset on. -/
def drop? : Nat → List Char → Option (List Char)
  | 0, text => some text
  | _ + 1, [] => none
  | n + 1, c :: text => if c.utf8Size ≤ n + 1 then drop? (n + 1 - c.utf8Size) text else none

/-- The text before an offset. -/
def take? : Nat → List Char → Option (List Char)
  | 0, _ => some []
  | _ + 1, [] => none
  | n + 1, c :: text =>
    if c.utf8Size ≤ n + 1 then (take? (n + 1 - c.utf8Size) text).map (c :: ·) else none

/-- The text between two offsets. -/
def part? (text : List Char) (start stop : Nat) : Option (List Char) :=
  if start ≤ stop then (drop? start text).bind (take? (stop - start)) else none

/-- A text shorter than another one. -/
abbrev Shorter (text : List Char) :=
  { part : List Char // part.length < text.length }

/-- The text between two offsets when that is not all of the text. -/
def properPart? (text : List Char) (start stop : Nat) : Option (Shorter text) :=
  (part? text start stop).bind fun part =>
    if shorter : part.length < text.length then some ⟨part, shorter⟩ else none

/-- How many characters start before an offset. -/
def charsBefore : Nat → List Char → Nat
  | 0, _ => 0
  | _ + 1, [] => 0
  | n + 1, c :: text => charsBefore (n + 1 - c.utf8Size) text + 1

/-- Every character takes at least one byte. -/
theorem utf8Size_pos (c : Char) : 0 < c.utf8Size :=
  Char.utf8Size_pos c

/-- The offset behind a part at the front cuts there. -/
theorem drop?_append (s t : List Char) : drop? (byteLength s) (s ++ t) = some t := by
  induction s with
  | nil => cases t <;> rfl
  | cons c s ih =>
    obtain ⟨n, size⟩ : ∃ n, c.utf8Size + byteLength s = n + 1 :=
      ⟨c.utf8Size + byteLength s - 1, by have := utf8Size_pos c; omega⟩
    rw [byteLength_cons, size, List.cons_append, drop?, if_pos (by omega), ← size,
      Nat.add_sub_cancel_left, ih]

/-- The offset behind a part at the front yields that part. -/
theorem take?_append (s t : List Char) : take? (byteLength s) (s ++ t) = some s := by
  induction s with
  | nil => cases t <;> rfl
  | cons c s ih =>
    obtain ⟨n, size⟩ : ∃ n, c.utf8Size + byteLength s = n + 1 :=
      ⟨c.utf8Size + byteLength s - 1, by have := utf8Size_pos c; omega⟩
    rw [byteLength_cons, size, List.cons_append, take?, if_pos (by omega), ← size,
      Nat.add_sub_cancel_left, ih, Option.map_some]

/-- Cutting between two parts' ends gives what is between them. -/
theorem part?_append (s t u : List Char) :
    part? (s ++ t ++ u) (byteLength s) (byteLength s + byteLength t) = some t := by
  rw [part?, if_pos (Nat.le_add_right _ _), List.append_assoc, drop?_append,
    Nat.add_sub_cancel_left, Option.bind_some, take?_append]

/-- At the end of a part, the characters that start before are the part's. -/
theorem charsBefore_append (s t : List Char) : charsBefore (byteLength s) (s ++ t) = s.length := by
  induction s with
  | nil => cases t <;> rfl
  | cons c s ih =>
    obtain ⟨n, size⟩ : ∃ n, c.utf8Size + byteLength s = n + 1 :=
      ⟨c.utf8Size + byteLength s - 1, by have := utf8Size_pos c; omega⟩
    rw [byteLength_cons, size, List.cons_append, charsBefore, ← size, Nat.add_sub_cancel_left, ih,
      List.length_cons]

end SelectionFormula.Text
