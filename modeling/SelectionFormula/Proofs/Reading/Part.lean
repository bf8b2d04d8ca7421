import SelectionFormula.Expr.Reading
import SelectionFormula.Proofs.Text.Occurrence

/-!
Reading the parts of a text, told by the parts and not by their offsets.

The forms cut a text at byte offsets and read what lies between. Where the
offsets are the ends of parts that the text is made of, a cut gives the part
(`readPart_mid`), and the cuts at the commas of a list give its pieces
(`readItems_eq`).
-/

namespace SelectionFormula

theorem bind_eq_ok_iff {ε α β : Type} {x : Except ε α} {f : α → Except ε β} {b : β} :
    x >>= f = .ok b ↔ ∃ a, x = .ok a ∧ f a = .ok b := by
  cases x with
  | error e => exact ⟨nofun, nofun⟩
  | ok a => exact ⟨fun h => ⟨a, rfl, h⟩, fun ⟨_, rfl, h⟩ => h⟩

theorem map_eq_ok_iff {ε α β : Type} {x : Except ε α} {f : α → β} {b : β} :
    x.map f = .ok b ↔ ∃ a, x = .ok a ∧ f a = b := by
  cases x <;> simp [Except.map]

@[simp] theorem mapError_eq_ok_iff {ε ε' α : Type} {x : Except ε α} {f : ε → ε'} {a : α} :
    x.mapError f = .ok a ↔ x = .ok a := by
  cases x with
  | error e => exact ⟨nofun, nofun⟩
  | ok b =>
    constructor
    · intro mapped
      cases mapped
      rfl
    · intro result
      cases result
      rfl

@[simp] theorem mapError_shifted_zero {α : Type} (answer : Except Stop α) :
    answer.mapError (·.shifted 0) = answer := by
  cases answer with
  | error stop => exact congrArg Except.error stop.shifted_zero
  | ok a => rfl

theorem mapError_shifted_shifted {α : Type} (answer : Except Stop α) (inner outer : Nat) :
    (answer.mapError (·.shifted inner)).mapError (·.shifted outer) =
      answer.mapError (·.shifted (inner + outer)) := by
  cases answer with
  | error stop => exact congrArg Except.error (stop.shifted_shifted inner outer)
  | ok a => rfl

/-! ### Why an answer rejects -/

theorem reject_inj {α : Type} {cause cause' : Cause} {offset offset' : Nat} :
    (reject cause offset : Except Stop α) = reject cause' offset' ↔
      cause = cause' ∧ offset = offset' := by
  simp [reject]

theorem bind_eq_reject_iff {α β : Type} {x : Except Stop α} {f : α → Except Stop β}
    {cause : Cause} {offset : Nat} :
    x >>= f = reject cause offset ↔
      x = reject cause offset ∨ ∃ a, x = .ok a ∧ f a = reject cause offset := by
  cases x with
  | error stop =>
    constructor
    · rintro ⟨⟩
      exact .inl rfl
    · rintro (⟨⟨⟩⟩ | ⟨a, ⟨⟩, -⟩)
      rfl
  | ok a =>
    constructor
    · exact fun rejected => .inr ⟨a, rfl, rejected⟩
    · rintro (⟨⟨⟩⟩ | ⟨_, ⟨⟩, rejected⟩)
      exact rejected

theorem map_eq_reject_iff {α β : Type} {x : Except Stop α} {f : α → β} {cause : Cause}
    {offset : Nat} : x.map f = reject cause offset ↔ x = reject cause offset := by
  cases x with
  | error stop =>
    constructor
    · rintro ⟨⟩
      rfl
    · rintro ⟨⟩
      rfl
  | ok a => exact ⟨nofun, nofun⟩

/-- A part's rejection is the text's, moved by what is in front of the part. -/
theorem mapError_eq_reject_iff {α : Type} {x : Except Stop α} {cause : Cause}
    {front offset : Nat} :
    x.mapError (·.shifted front) = reject cause offset ↔
      ∃ inner, x = reject cause inner ∧ offset = inner + front := by
  cases x with
  | ok a => exact ⟨nofun, fun ⟨_, rejected, _⟩ => nomatch rejected⟩
  | error stop =>
    constructor
    · intro rejected
      cases stop with
      | outOfText => cases rejected
      | rejected rejection =>
        cases rejected
        exact ⟨rejection.location, rfl, rfl⟩
    · rintro ⟨inner, ⟨⟩, rfl⟩
      rfl

namespace Expr

open Text

/-- How the parts of a text are read: as texts of their own. -/
def readWithin (text : List Char) : Form.Reader text :=
  fun part => read part.val

theorem read_eq (text : List Char) :
    read text = (readTrimmed (readWithin (trim text))).mapError
      (·.shifted (byteLength (text.takeWhile isBlank))) := by
  rw [read]
  rfl

variable {text s t : List Char}

/-- What lies between the ends of a part is the part, at the offset of its front. -/
theorem readPart_mid {mid : List Char} (split : text = s ++ mid ++ t)
    (shorter : mid.length < text.length) :
    Form.readPart (readWithin text) (byteLength s) (byteLength s + byteLength mid) =
      (read mid).mapError (·.shifted (byteLength s)) := by
  have cut : part? text (byteLength s) (byteLength s + byteLength mid) = some mid := by
    rw [split]
    exact part?_append s mid t
  rw [Form.readPart, properPart?, cut, Option.bind_some, dif_pos shorter]
  rfl

theorem readPart_front (split : text = s ++ t) (shorter : s.length < text.length) :
    Form.readPart (readWithin text) 0 (byteLength s) = read s := by
  have cut := @readPart_mid text [] t s (by simpa using split) shorter
  simpa only [byteLength_nil, Nat.zero_add, mapError_shifted_zero] using cut

theorem readPart_back (split : text = s ++ t) (shorter : t.length < text.length) :
    Form.readPart (readWithin text) (byteLength s) (byteLength text) =
      (read t).mapError (·.shifted (byteLength s)) := by
  have cut := @readPart_mid text s [] t (by simpa using split) shorter
  rwa [← byteLength_append, ← split] at cut

/-! ### Lists -/

/-- Texts read one after the other, one byte between two of them. -/
def readEach : Nat → List (List Char) → Except Stop (List Expr)
  | _, [] => .ok []
  | start, piece :: later => do
    let item ← (read piece).mapError (·.shifted start)
    let items ← readEach (start + byteLength piece + 1) later
    return item :: items

/-- The items of a list that begins at an offset. -/
def readList (start : Nat) (list : List Char) : Except Stop (List Expr) :=
  if list = [] then .ok [] else readEach start (pieces ',' list)

theorem readBetween_ends {first : List Char} {later : List (List Char)}
    (split : text = s ++ joined ',' first later ++ t)
    (shorter : (joined ',' first later).length < text.length) :
    Form.readBetween (readWithin text) (byteLength s) (ends (byteLength s) first later) =
      readEach (byteLength s) (first :: later) := by
  induction later generalizing first s with
  | nil =>
    rw [joined_nil] at split shorter
    simp only [ends, Form.readBetween, readEach, readPart_mid split shorter]
  | cons next later ih =>
    have cut : text = s ++ first ++ (',' :: joined ',' next later ++ t) := by
      simpa using split
    have rest : text = (s ++ first ++ [',']) ++ joined ',' next later ++ t := by
      simpa using split
    have front : byteLength (s ++ first ++ [',']) = byteLength s + byteLength first + 1 := by
      simp only [byteLength_append, byteLength_cons, byteLength_nil]
      rfl
    simp only [joined_cons, List.length_append, List.length_cons] at shorter
    have later := ih rest (by omega)
    rw [front] at later
    simp only [ends, Form.readBetween, readEach, later, readPart_mid cut (by omega)]

/-- The cuts at the commas of a list read its pieces. -/
theorem readItems_eq {list : List Char} (split : text = s ++ list ++ t)
    (shorter : list.length < text.length) :
    Form.readItems (readWithin text) (byteLength s) (byteLength s + byteLength list) =
      readList (byteLength s) list := by
  have cut : part? text (byteLength s) (byteLength s + byteLength list) = some list := by
    rw [split]
    exact part?_append s list t
  cases list with
  | nil => simp only [Form.readItems, cut, readList, if_true]
  | cons c list =>
    have commas : (occurrences [','] (c :: list)).map (byteLength s + ·) ++
        [byteLength s + byteLength (c :: list)] =
        ends (byteLength s) (piecesFrom ',' 0 (c :: list)).1 (piecesFrom ',' 0 (c :: list)).2 := by
      rw [occurrences, ← occurrencesFrom_add (by simp), Nat.add_zero]
      exact occurrencesFrom_ends rfl 0 (byteLength s) (c :: list)
    have again := piecesFrom_joined ',' 0 (c :: list)
    simp only [Form.readItems, cut, commas, readList, reduceCtorEq, if_false, pieces]
    exact readBetween_ends (by rw [again]; exact split) (by rw [again]; exact shorter)

end Expr

end SelectionFormula
