import SelectionFormula.Text.TopLevel
import SelectionFormula.Proofs.Text.Nesting

/-!
What the searches for a token outside all brackets find.

The backward search answers by the text behind a place alone, so its answers
follow the text from the right.

* `lastOccurrence?_eq_none_iff` — nothing is found exactly when no part at the end
  of depth zero begins with the token.
* `exists_of_lastOccurrence?_eq_some`, `lastOccurrence?_at` — what is found is an
  occurrence behind which there is none, and such an occurrence is found.
* `lastOccurrence?_append_of_outside` — a part without the token's first character
  outside its brackets adds nothing to what is found behind it.
* `piecesFrom_joined`, `occurrencesFrom_ends` — the occurrences of a separator cut
  a text into pieces that join to it again.
-/

namespace SelectionFormula.Text

variable {token : List Char}

theorem lastFrom_fst (token : List Char) (offset : Nat) (text : List Char) :
    (lastFrom token offset text).1 = -depth text := by
  induction text generalizing offset with
  | nil => rfl
  | cons c text ih =>
    simp only [lastFrom, ih, depth_cons]
    omega

theorem hits_add (nonempty : token ≠ []) (base offset : Nat) (text : List Char) :
    hits token (base + offset) text = (hits token offset text).map (base + ·) := by
  cases text with
  | nil => rfl
  | cons c text =>
    rw [hits, hits, if_neg nonempty, if_neg nonempty]
    split <;> rfl

theorem lastFrom_snd_add (nonempty : token ≠ []) (base offset : Nat) (text : List Char) :
    (lastFrom token (base + offset) text).2 = (lastFrom token offset text).2.map (base + ·) := by
  induction text generalizing offset with
  | nil => rfl
  | cons c text ih =>
    simp only [lastFrom, lastFrom_fst, hits_add nonempty, Nat.add_assoc, ih]
    cases (lastFrom token (offset + c.utf8Size) text).2 with
    | some last => rfl
    | none =>
      by_cases closed : -depth text - nesting c = 0
      · rw [if_pos closed, if_pos closed, List.getLast?_map]
        rfl
      · rw [if_neg closed, if_neg closed]
        rfl

/-- One step of the backward search. -/
theorem lastOccurrence?_cons (nonempty : token ≠ []) (c : Char) (text : List Char) :
    lastOccurrence? token (c :: text) =
      ((lastOccurrence? token text).map (c.utf8Size + ·)).or
        (if depth (c :: text) = 0 ∧ token <+: c :: text then some 0 else none) := by
  have shift := lastFrom_snd_add nonempty c.utf8Size 0 text
  rw [Nat.add_zero] at shift
  have closed : -depth text - nesting c = 0 ↔ depth (c :: text) = 0 := by
    rw [depth_cons]
    omega
  simp only [lastOccurrence?, lastFrom, lastFrom_fst, Nat.zero_add, shift, closed, hits,
    if_neg nonempty, List.isPrefixOf_iff_prefix, Option.orElse_eq_orElse, Option.orElse_eq_or]
  congr 1
  by_cases outside : depth (c :: text) = 0 <;> by_cases front : token <+: c :: text <;>
    simp [outside, front]

@[simp] theorem lastOccurrence?_nil (token : List Char) : lastOccurrence? token [] = none := rfl

/-- What is found in the back of a text is found in the whole text. -/
theorem lastOccurrence?_append_of_eq_some (nonempty : token ≠ []) {t : List Char} {offset : Nat}
    (found : lastOccurrence? token t = some offset) (s : List Char) :
    lastOccurrence? token (s ++ t) = some (byteLength s + offset) := by
  induction s with
  | nil => simpa using found
  | cons c s ih =>
    rw [List.cons_append, lastOccurrence?_cons nonempty, ih]
    simp [Nat.add_assoc]

theorem lastOccurrence?_eq_none_iff (nonempty : token ≠ []) {text : List Char} :
    lastOccurrence? token text = none ↔
      ∀ s t, text = s ++ t → depth t = 0 → ¬ token <+: t := by
  induction text with
  | nil =>
    simp only [lastOccurrence?_nil, true_iff]
    rintro s t split - isPrefix
    obtain ⟨-, rfl⟩ := List.append_eq_nil_iff.mp split.symm
    exact nonempty (List.prefix_nil.mp isPrefix)
  | cons c text ih =>
    rw [lastOccurrence?_cons nonempty, Option.or_eq_none_iff, Option.map_eq_none_iff, ih]
    constructor
    · rintro ⟨later, here⟩ s t split closed isPrefix
      cases s with
      | nil =>
        rw [List.nil_append] at split
        subst split
        simp [closed, isPrefix] at here
      | cons d s =>
        obtain ⟨rfl, rfl⟩ := List.cons.inj split
        exact later s t rfl closed isPrefix
    · intro absent
      refine ⟨fun s t split => absent (c :: s) t (by rw [split, List.cons_append]), ?_⟩
      rw [if_neg]
      rintro ⟨closed, isPrefix⟩
      exact absent [] (c :: text) rfl closed isPrefix

theorem exists_of_lastOccurrence?_eq_some (nonempty : token ≠ []) {text : List Char} {offset : Nat}
    (found : lastOccurrence? token text = some offset) :
    ∃ s t, text = s ++ token ++ t ∧ offset = byteLength s ∧ depth (token ++ t) = 0 ∧
      lastOccurrence? token (token.tail ++ t) = none := by
  induction text generalizing offset with
  | nil => simp at found
  | cons c text ih =>
    rw [lastOccurrence?_cons nonempty] at found
    cases later : lastOccurrence? token text with
    | some inner =>
      obtain ⟨s, t, rfl, rfl, closed, last⟩ := ih later
      rw [later] at found
      exact ⟨c :: s, t, by simp, by simpa using found.symm, closed, last⟩
    | none =>
      rw [later, Option.map_none, Option.none_or] at found
      split at found
      · next here =>
        obtain ⟨closed, t, split⟩ := here
        rw [← split] at closed
        refine ⟨[], t, by simp [split], by simpa using found.symm, closed, ?_⟩
        obtain ⟨d, rest, rfl⟩ := List.exists_cons_of_ne_nil nonempty
        obtain ⟨-, rfl⟩ := List.cons.inj split
        exact later
      · simp at found

/-- Two ways to split a text at one offset are the same. -/
theorem append_inj_of_byteLength {s s' t t' : List Char} (same : s ++ t = s' ++ t')
    (bytes : byteLength s = byteLength s') : s = s' ∧ t = t' := by
  have empty : ∀ w : List Char, byteLength w = 0 → w = [] := by
    intro w none
    cases w with
    | nil => rfl
    | cons c w =>
      have := utf8Size_pos c
      rw [byteLength_cons] at none
      omega
  rcases List.append_eq_append_iff.mp same with ⟨w, rfl, rfl⟩ | ⟨w, rfl, rfl⟩ <;>
    (rw [byteLength_append] at bytes; simp [empty w (by omega)])

/-- Two ways to split a text, one behind the other. -/
theorem split_between {text s t u v : List Char} {c d : Char} (here : text = s ++ c :: t)
    (there : text = u ++ d :: v) (before : byteLength s < byteLength u) :
    ∃ mid, u = s ++ c :: mid ∧ t = mid ++ d :: v := by
  rcases List.append_eq_append_iff.mp (here.symm.trans there) with ⟨w, rfl, tail⟩ | ⟨w, rfl, -⟩
  · cases w with
    | nil => simp at before
    | cons e w =>
      obtain ⟨rfl, rfl⟩ := List.cons.inj tail
      exact ⟨w, rfl, rfl⟩
  · rw [byteLength_append] at before
    omega

/-- A balanced text cut at the last occurrence of a token leaves two balanced texts. -/
theorem Balanced.of_lastOccurrence? (nonempty : token ≠ []) {text s t : List Char}
    (balanced : Balanced text) (split : text = s ++ token ++ t)
    (found : lastOccurrence? token text = some (byteLength s)) :
    Balanced s ∧ Balanced (token ++ t) := by
  obtain ⟨s', t', split', bytes, closed, -⟩ := exists_of_lastOccurrence?_eq_some nonempty found
  have same : s ++ (token ++ t) = s' ++ (token ++ t') := by
    rw [← List.append_assoc, ← List.append_assoc, ← split, ← split']
  obtain ⟨rfl, back⟩ := append_inj_of_byteLength same bytes
  have whole := balanced.depth_eq_zero
  rw [split, List.append_assoc, back, depth_append, closed] at whole
  rw [split, List.append_assoc] at balanced
  exact balanced.of_append (by omega)

/-- An occurrence behind which there is none is the last one. -/
theorem lastOccurrence?_at {c : Char} {rest t : List Char} (closed : depth (c :: rest ++ t) = 0)
    (last : lastOccurrence? (c :: rest) (rest ++ t) = none) (s : List Char) :
    lastOccurrence? (c :: rest) (s ++ (c :: rest) ++ t) = some (byteLength s) := by
  have here : lastOccurrence? (c :: rest) (c :: (rest ++ t)) = some 0 := by
    rw [lastOccurrence?_cons (by simp), last, Option.map_none, Option.none_or, if_pos]
    exact ⟨closed, t, rfl⟩
  simpa using lastOccurrence?_append_of_eq_some (by simp) here s

theorem lastOccurrence?_eq_none_of_append_left (nonempty : token ≠ []) {s t : List Char}
    (absent : lastOccurrence? token (s ++ t) = none) : lastOccurrence? token t = none := by
  cases found : lastOccurrence? token t with
  | none => rfl
  | some offset => simp [lastOccurrence?_append_of_eq_some nonempty found s] at absent

theorem lastOccurrence?_eq_none_of_append_right (nonempty : token ≠ []) {s t : List Char}
    (closed : depth t = 0) (absent : lastOccurrence? token (s ++ t) = none) :
    lastOccurrence? token s = none := by
  rw [lastOccurrence?_eq_none_iff nonempty] at absent ⊢
  rintro u v rfl zero isPrefix
  refine absent u (v ++ t) (List.append_assoc ..) (by rw [depth_append, zero, closed]; rfl) ?_
  exact isPrefix.trans (List.prefix_append v t)

/-- A part without the token's first character outside its brackets adds nothing. -/
theorem lastOccurrence?_append_of_outside {c : Char} {rest s t : List Char}
    (plain : nesting c = 0) (closed : depth s = 0) (free : c ∉ outside s) (zero : depth t = 0) :
    lastOccurrence? (c :: rest) (s ++ t) =
      (lastOccurrence? (c :: rest) t).map (byteLength s + ·) := by
  have nonempty : c :: rest ≠ [] := by simp
  cases found : lastOccurrence? (c :: rest) t with
  | some offset => rw [lastOccurrence?_append_of_eq_some nonempty found, Option.map_some]
  | none =>
    rw [Option.map_none, lastOccurrence?_eq_none_iff nonempty]
    intro u v split at_zero isPrefix
    rcases List.append_eq_append_iff.mp split with ⟨w, -, rfl⟩ | ⟨w, rfl, rfl⟩
    · exact (lastOccurrence?_eq_none_iff nonempty).mp found w v rfl at_zero isPrefix
    · cases w with
      | nil => exact (lastOccurrence?_eq_none_iff nonempty).mp found [] t rfl zero isPrefix
      | cons d w =>
        obtain ⟨rfl, -⟩ := List.cons_prefix_cons.mp isPrefix
        refine free (mem_outside_iff.mpr ⟨u, w, rfl, ?_, plain⟩)
        simp only [List.cons_append, depth_cons, depth_append] at at_zero closed
        omega

theorem lastOccurrence?_eq_none_of_outside {c : Char} {rest s : List Char}
    (plain : nesting c = 0) (closed : depth s = 0) (free : c ∉ outside s) :
    lastOccurrence? (c :: rest) s = none := by
  simpa using @lastOccurrence?_append_of_outside c rest s [] plain closed free rfl

/-- A token at the front of two texts is inside the first one or goes on into the second. -/
theorem isPrefix_append_cases {s t : List Char} (front : token <+: s ++ t) :
    token <+: s ∨ ∃ c rest, token = s ++ c :: rest ∧ c ∈ t.head? := by
  rcases List.prefix_or_prefix_of_prefix front (List.prefix_append s t) with inside | ⟨u, rfl⟩
  · exact .inl inside
  · cases u with
    | nil => exact .inl (by simp)
    | cons c rest =>
      rw [List.prefix_append_right_inj] at front
      obtain ⟨v, rfl⟩ := front
      exact .inr ⟨c, rest, rfl, rfl⟩

/-! ### Pieces between separators -/

/-- The pieces of a text between the separators outside all brackets, the first one
apart from the others. -/
def piecesFrom (separator : Char) : Int → List Char → List Char × List (List Char)
  | _, [] => ([], [])
  | before, c :: text =>
    let inside := before + nesting c
    let (first, later) := piecesFrom separator inside text
    if inside = 0 ∧ c = separator then ([], first :: later) else (c :: first, later)

/-- Where pieces end that begin at an offset, one byte between two of them. -/
def ends : Nat → List Char → List (List Char) → List Nat
  | start, first, [] => [start + byteLength first]
  | start, first, next :: later =>
    (start + byteLength first) :: ends (start + byteLength first + 1) next later

theorem ends_cons (c : Char) (start : Nat) (first : List Char) (later : List (List Char)) :
    ends start (c :: first) later = ends (start + c.utf8Size) first later := by
  cases later <;> simp [ends, Nat.add_assoc]

/-- Pieces put together again with a separator in front of each further one. -/
def joined (separator : Char) (first : List Char) (later : List (List Char)) : List Char :=
  first ++ later.flatMap (separator :: ·)

@[simp] theorem joined_nil (separator : Char) (first : List Char) :
    joined separator first [] = first := by
  simp [joined]

@[simp] theorem joined_cons (separator : Char) (first next : List Char)
    (later : List (List Char)) :
    joined separator first (next :: later) = first ++ separator :: joined separator next later := by
  simp [joined]

theorem piecesFrom_joined (separator : Char) (before : Int) (text : List Char) :
    joined separator (piecesFrom separator before text).1 (piecesFrom separator before text).2 =
      text := by
  induction text generalizing before with
  | nil => rfl
  | cons c text ih =>
    have rest := ih (before + nesting c)
    rw [piecesFrom]
    dsimp only
    split
    · next separates =>
      rw [joined_cons, rest, separates.2]
      rfl
    · next plain => simpa [joined] using rest

theorem occurrencesFrom_ends {separator : Char} (narrow : separator.utf8Size = 1) (before : Int)
    (offset : Nat) (text : List Char) :
    occurrencesFrom [separator] before offset text ++ [offset + byteLength text] =
      ends offset (piecesFrom separator before text).1 (piecesFrom separator before text).2 := by
  induction text generalizing before offset with
  | nil => simp [occurrencesFrom, piecesFrom, ends]
  | cons c text ih =>
    have rest := ih (before + nesting c) (offset + c.utf8Size)
    rw [Nat.add_assoc, ← byteLength_cons] at rest
    simp only [occurrencesFrom, piecesFrom, hits, List.cons_ne_self, if_false]
    by_cases closed : before + nesting c = 0
    · by_cases separates : c = separator
      · subst separates
        simp [closed, ends, narrow] at rest ⊢
        exact rest
      · have differs : (separator == c) = false := by simpa using fun h => separates h.symm
        simpa [closed, separates, differs, ends_cons, List.isPrefixOf] using rest
    · simpa [closed, ends_cons] using rest

theorem occurrencesFrom_add (nonempty : token ≠ []) (before : Int) (base offset : Nat)
    (text : List Char) :
    occurrencesFrom token before (base + offset) text =
      (occurrencesFrom token before offset text).map (base + ·) := by
  induction text generalizing before offset with
  | nil => rfl
  | cons c text ih =>
    simp only [occurrencesFrom, hits_add nonempty, Nat.add_assoc, ih]
    by_cases closed : before + nesting c = 0
    · rw [if_pos closed, if_pos closed, List.map_append]
    · rw [if_neg closed, if_neg closed]

/-- A part without the separator outside its brackets is part of the next piece. -/
theorem piecesFrom_append {separator : Char} (plain : nesting separator = 0) {before : Int}
    {s : List Char} (free : separator ∉ outsideFrom before s) (t : List Char) :
    piecesFrom separator before (s ++ t) =
      (s ++ (piecesFrom separator (before + depth s) t).1,
        (piecesFrom separator (before + depth s) t).2) := by
  induction s generalizing before with
  | nil => simp
  | cons c s ih =>
    have here : ¬ (before + nesting c = 0 ∧ c = separator) := by
      rintro ⟨closed, rfl⟩
      refine free (mem_outsideFrom_iff.mpr ⟨[], s, rfl, ?_, plain⟩)
      rw [depth_nil]
      omega
    have later : separator ∉ outsideFrom (before + nesting c) s := by
      intro mem
      rw [outsideFrom] at free
      split at free
      · exact free (List.mem_cons_of_mem _ mem)
      · exact free mem
    rw [List.cons_append, piecesFrom]
    dsimp only
    rw [if_neg here, ih later, depth_cons, Int.add_assoc]
    rfl

/-- The pieces of a text between the separators outside all brackets. -/
def pieces (separator : Char) (text : List Char) : List (List Char) :=
  (piecesFrom separator 0 text).1 :: (piecesFrom separator 0 text).2

/-- The first separator outside all brackets. -/
theorem exists_first_cut {separator : Char} {text : List Char} (mem : separator ∈ outside text) :
    ∃ s t, text = s ++ separator :: t ∧ depth s = 0 ∧ separator ∉ outside s := by
  induction size : text.length using Nat.strongRecOn generalizing text with
  | ind n ih =>
    obtain ⟨s, t, rfl, closed, -⟩ := mem_outside_iff.mp mem
    by_cases earlier : separator ∈ outside s
    · rw [List.length_append, List.length_cons] at size
      obtain ⟨u, v, rfl, front, free⟩ := ih s.length (by omega) earlier rfl
      exact ⟨u, v ++ separator :: t, by simp, front, free⟩
    · exact ⟨s, t, rfl, closed, earlier⟩

section Pieces

variable {separator : Char} (plain : nesting separator = 0)

include plain

/-- A text without the separator outside its brackets is one piece. -/
theorem pieces_of_free {s : List Char} (free : separator ∉ outside s) :
    pieces separator s = [s] := by
  have whole := piecesFrom_append plain free []
  rw [List.append_nil] at whole
  rw [pieces, whole, piecesFrom, List.append_nil]

/-- The pieces of a text that is cut at its first separator. -/
theorem pieces_cut {s : List Char} (closed : depth s = 0) (free : separator ∉ outside s)
    (t : List Char) : pieces separator (s ++ separator :: t) = s :: pieces separator t := by
  have here : (0 : Int) + nesting separator = 0 := by rw [plain]; rfl
  rw [pieces, piecesFrom_append plain free, closed, Int.zero_add, piecesFrom]
  dsimp only
  rw [here, if_pos ⟨rfl, rfl⟩, List.append_nil, pieces]

end Pieces

/-- What holds of one item, and of an item in front of what it holds of, holds of every
balanced list. -/
theorem Balanced.list_induction {motive : (text : List Char) → Balanced text → Prop}
    (whole : ∀ s (balanced : Balanced s), ',' ∉ outside s → motive s balanced)
    (cut : ∀ s t, Balanced s → ∀ (rest : Balanced t) (whole : Balanced (s ++ ',' :: t)),
      ',' ∉ outside s → motive t rest → motive (s ++ ',' :: t) whole)
    {text : List Char} (balanced : Balanced text) : motive text balanced := by
  induction size : text.length using Nat.strongRecOn generalizing text with
  | ind n ih =>
    by_cases outer : ',' ∈ outside text
    · obtain ⟨s, t, rfl, closed, free⟩ := exists_first_cut outer
      obtain ⟨front, behind⟩ := balanced.of_append closed
      have rest : Balanced t := (@Balanced.of_append [','] t behind rfl).2
      rw [List.length_append, List.length_cons] at size
      exact cut s t front rest balanced free (ih t.length (by omega) rest rfl)
    · exact whole text balanced outer

end SelectionFormula.Text
