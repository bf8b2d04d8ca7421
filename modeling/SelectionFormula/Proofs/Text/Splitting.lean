import SelectionFormula.Proofs.Text.Grammar

/-!
Cutting a text where a token stands outside all brackets.

One search counts brackets from the left and the other from the right. On a text that closes
what it opens the two counts agree between any two characters, so for a token without
brackets the backward search answers with the last offset that the forward search lists. At
such an offset no bracket is open, and the text may be cut there.

* `mem_occurrences_iff`, `occurrences_increasing` — what the forward search lists, and in which
  order.
* `lastOccurrence?_eq_getLast?` — the two searches agree.
* `piecesAt?_occurrences`, `intercalate_pieces`, `occurrences_of_mem_pieces` — the parts between
  the offsets of a character are pieces that join to the text again and can be cut no further.
* `split_at_occurrences` — all of this for one nested text.
-/

namespace SelectionFormula.Text

variable {token text : List Char} {before : Int}

/-! ### What the forward search lists -/

/-- One step of the forward search. -/
theorem occurrencesFrom_cons (nonempty : token ≠ []) (before : Int) (offset : Nat) (c : Char)
    (text : List Char) :
    occurrencesFrom token before offset (c :: text) =
      (if before + nesting c = 0 ∧ token <+: c :: text then [offset] else []) ++
        occurrencesFrom token (before + nesting c) (offset + c.utf8Size) text := by
  simp only [occurrencesFrom, hits, if_neg nonempty, List.isPrefixOf_iff_prefix]
  by_cases outside : before + nesting c = 0 <;> by_cases front : token <+: c :: text <;>
    simp [outside, front]

theorem nesting_of_unbracketed_prefix {c : Char} (plain : Unbracketed token)
    (nonempty : token ≠ []) (front : token <+: c :: text) : nesting c = 0 := by
  obtain ⟨d, rest, rfl⟩ := List.exists_cons_of_ne_nil nonempty
  obtain ⟨rfl, -⟩ := List.cons_prefix_cons.mp front
  simp [nesting, plain d List.mem_cons_self]

section Forward

variable (nonempty : token ≠ []) (plain : Unbracketed token)

include nonempty plain

/-- The forward search lists the offsets at which the token stands with nothing open. -/
theorem mem_occurrencesFrom_iff {start offset : Nat} :
    offset ∈ occurrencesFrom token before start text ↔
      ∃ s t, text = s ++ token ++ t ∧ offset = start + byteLength s ∧ before + depth s = 0 := by
  induction text generalizing before start with
  | nil =>
    simp only [occurrencesFrom, List.not_mem_nil, false_iff]
    rintro ⟨s, t, split, -, -⟩
    simp [nonempty] at split
  | cons c text ih =>
    rw [occurrencesFrom_cons nonempty, List.mem_append, ih]
    constructor
    · rintro (here | ⟨s, t, rfl, rfl, closed⟩)
      · split at here
        · next found =>
          obtain ⟨t, split⟩ := found.2
          have level := nesting_of_unbracketed_prefix plain nonempty found.2
          rw [List.mem_singleton.mp here]
          refine ⟨[], t, by simpa using split.symm, rfl, ?_⟩
          rw [depth_nil]
          omega
        · cases here
      · refine ⟨c :: s, t, rfl, by simp [Nat.add_assoc], ?_⟩
        rw [depth_cons]
        omega
    · rintro ⟨s, t, split, rfl, closed⟩
      cases s with
      | nil =>
        have front : token <+: c :: text := ⟨t, split.symm⟩
        have level := nesting_of_unbracketed_prefix plain nonempty front
        rw [depth_nil] at closed
        exact .inl (by simp [front, show before + nesting c = 0 by omega])
      | cons d s =>
        obtain ⟨rfl, rfl⟩ := List.cons.inj split
        refine .inr ⟨s, t, rfl, by simp [Nat.add_assoc], ?_⟩
        rw [depth_cons] at closed
        omega

theorem occurrencesFrom_increasing (before : Int) (start : Nat) (text : List Char) :
    (occurrencesFrom token before start text).Pairwise (· < ·) := by
  induction text generalizing before start with
  | nil => exact .nil
  | cons c text ih =>
    rw [occurrencesFrom_cons nonempty, List.pairwise_append]
    refine ⟨?_, ih _ _, ?_⟩
    · split
      · exact List.pairwise_singleton _ _
      · exact .nil
    · intro offset here later behind
      obtain ⟨s, -, -, rfl, -⟩ := (mem_occurrencesFrom_iff nonempty plain).mp behind
      have wide := utf8Size_pos c
      split at here
      · rw [List.mem_singleton.mp here]
        omega
      · cases here

/-- Where a text closes what it opens, the backward search finds the last of the offsets that
the forward search lists. -/
theorem lastFrom_eq_getLast? (closed : before + depth text = 0) (start : Nat) :
    (lastFrom token start text).2 = (occurrencesFrom token before start text).getLast? := by
  induction text generalizing before start with
  | nil => rfl
  | cons c text ih =>
    rw [depth_cons] at closed
    rw [occurrencesFrom_cons nonempty, List.getLast?_append, ← ih (by omega)]
    simp only [lastFrom, lastFrom_fst, hits, if_neg nonempty, List.isPrefixOf_iff_prefix,
      Option.orElse_eq_orElse, Option.orElse_eq_or]
    congr 1
    by_cases front : token <+: c :: text
    · -- A character that begins the token is no bracket, so both counts are the same at it.
      have level := nesting_of_unbracketed_prefix plain nonempty front
      have same : -depth text - nesting c = 0 ↔ before + nesting c = 0 := by omega
      by_cases outside : before + nesting c = 0 <;> simp [front, same, outside]
    · simp [front]

theorem lastOccurrence?_eq_getLast? (closed : depth text = 0) :
    lastOccurrence? token text = (occurrences token text).getLast? :=
  lastFrom_eq_getLast? nonempty plain (by rw [closed, Int.zero_add]) 0

end Forward

/-- A token stands at an offset of a text, and no bracket is open in front of it. -/
def StandsOutside (token text : List Char) (offset : Nat) : Prop :=
  ∃ front back, text = front ++ token ++ back ∧ offset = byteLength front ∧
    ∀ bracket, ¬ InnermostOpen bracket front

/-- In a balanced text no bracket is open where as many are closed as opened. -/
theorem Balanced.depth_eq_zero_iff {s t : List Char} (balanced : Balanced (s ++ t)) :
    depth s = 0 ↔ ∀ bracket, ¬ InnermostOpen bracket s := by
  rw [Balanced, openAfter?_append] at balanced
  obtain ⟨stack, run, -⟩ := Option.bind_eq_some_iff.mp balanced
  have height := length_openAfter? run
  rw [List.length_nil] at height
  constructor
  · intro closed bracket opened
    rw [innermostOpen_iff run] at opened
    obtain ⟨below, rfl⟩ := List.head?_eq_some_iff.mp opened
    rw [List.length_cons] at height
    omega
  · intro none
    cases stack with
    | nil => simpa using height.symm
    | cons bracket below => exact absurd ((innermostOpen_iff run).mpr rfl) (none bracket)

theorem mem_occurrences_iff (balanced : Balanced text) (nonempty : token ≠ [])
    (plain : Unbracketed token) {offset : Nat} :
    offset ∈ occurrences token text ↔ StandsOutside token text offset := by
  rw [occurrences, mem_occurrencesFrom_iff nonempty plain]
  constructor
  · rintro ⟨s, t, rfl, rfl, closed⟩
    rw [List.append_assoc] at balanced
    rw [Int.zero_add, balanced.depth_eq_zero_iff] at closed
    exact ⟨s, t, rfl, Nat.zero_add _, closed⟩
  · rintro ⟨s, t, rfl, rfl, none⟩
    rw [List.append_assoc] at balanced
    refine ⟨s, t, rfl, (Nat.zero_add _).symm, ?_⟩
    rw [Int.zero_add, balanced.depth_eq_zero_iff]
    exact none

/-- A balanced text cut where a token stands outside leaves two balanced texts. -/
theorem Balanced.cut (balanced : Balanced text) {offset : Nat}
    (outside : StandsOutside token text offset) :
    ∃ front back, text = front ++ back ∧ take? offset text = some front ∧
      drop? offset text = some back ∧ Balanced front ∧ Balanced back := by
  obtain ⟨front, back, rfl, rfl, none⟩ := outside
  rw [List.append_assoc] at balanced ⊢
  have closed := balanced.depth_eq_zero_iff.mpr none
  exact ⟨front, token ++ back, rfl, take?_append _ _, drop?_append _ _, balanced.of_append closed⟩

/-! ### Pieces -/

/-- The parts of a text from an offset on to each of the next and to its end, leaving out as
many bytes at each of them. -/
def piecesAt? (text : List Char) (width : Nat) : Nat → List Nat → Option (List (List Char))
  | start, [] => (part? text start (byteLength text)).map ([·])
  | start, finish :: later => do
    let piece ← part? text start finish
    let pieces ← piecesAt? text width (finish + width) later
    return piece :: pieces

section Pieces

variable {separator : Char}

/-- Behind what is cut off already, `lead` is what the next piece has so far. -/
theorem piecesAt?_occurrencesFrom (separator : Char) (before : Int) (done lead text : List Char) :
    piecesAt? (done ++ lead ++ text) separator.utf8Size (byteLength done)
        (occurrencesFrom [separator] before (byteLength (done ++ lead)) text) =
      some ((lead ++ (piecesFrom separator before text).1) ::
        (piecesFrom separator before text).2) := by
  induction text generalizing before done lead with
  | nil =>
    have whole := part?_append done lead []
    rw [List.append_nil, ← byteLength_append] at whole
    rw [occurrencesFrom, piecesAt?, List.append_nil, whole]
    simp [piecesFrom]
  | cons c text ih =>
    have moved : byteLength (done ++ lead) + c.utf8Size = byteLength (done ++ (lead ++ [c])) := by
      simp [Nat.add_assoc]
    rw [occurrencesFrom_cons (by simp), piecesFrom]
    dsimp only
    by_cases separates : before + nesting c = 0 ∧ c = separator
    · obtain ⟨outside, rfl⟩ := separates
      have later := ih (before + nesting c) (done ++ (lead ++ [c])) []
      have here := part?_append done lead (c :: text)
      rw [← byteLength_append] at here
      rw [if_pos ⟨outside, text, rfl⟩, if_pos ⟨outside, rfl⟩, List.singleton_append, piecesAt?,
        here, moved]
      simp only [List.append_nil, List.append_assoc, List.cons_append, List.nil_append] at later ⊢
      rw [later]
      rfl
    · have continues := ih (before + nesting c) done (lead ++ [c])
      have absent : ¬ (before + nesting c = 0 ∧ [separator] <+: c :: text) := by
        rintro ⟨outside, front⟩
        exact separates ⟨outside, (List.cons_prefix_cons.mp front).1.symm⟩
      rw [if_neg absent, if_neg separates, List.nil_append, moved]
      simpa using continues

theorem piecesAt?_occurrences (separator : Char) (text : List Char) :
    piecesAt? text separator.utf8Size 0 (occurrences [separator] text) =
      some (pieces separator text) :=
  piecesAt?_occurrencesFrom separator 0 [] [] text

theorem intercalate_eq_joined (separator : Char) (first : List Char) (later : List (List Char)) :
    [separator].intercalate (first :: later) = joined separator first later := by
  induction later generalizing first with
  | nil => simp
  | cons next later ih => rw [List.intercalate_cons_cons, ih, joined_cons, List.append_assoc]; rfl

/-- The pieces with a separator between two of them are the text. -/
theorem intercalate_pieces (separator : Char) (text : List Char) :
    [separator].intercalate (pieces separator text) = text := by
  rw [pieces, intercalate_eq_joined, piecesFrom_joined]

/-- In a piece the separator does not stand outside. -/
theorem occurrences_of_piecesFrom (separator : Char) (before : Int) (text : List Char) :
    (∀ start, occurrencesFrom [separator] before start (piecesFrom separator before text).1 = []) ∧
      ∀ piece ∈ (piecesFrom separator before text).2, occurrences [separator] piece = [] := by
  induction text generalizing before with
  | nil => exact ⟨fun _ => rfl, by simp [piecesFrom]⟩
  | cons c text ih =>
    obtain ⟨first, later⟩ := ih (before + nesting c)
    rw [piecesFrom]
    dsimp only
    split
    · next separates =>
      rw [separates.1] at first later ⊢
      exact ⟨fun _ => rfl, List.forall_mem_cons.mpr ⟨first 0, later⟩⟩
    · next plain =>
      refine ⟨fun start => ?_, later⟩
      have absent : ¬ (before + nesting c = 0 ∧
          [separator] <+: c :: (piecesFrom separator (before + nesting c) text).1) := by
        rintro ⟨outside, front⟩
        exact plain ⟨outside, (List.cons_prefix_cons.mp front).1.symm⟩
      rw [occurrencesFrom_cons (by simp), if_neg absent, first]
      rfl

theorem occurrences_of_mem_pieces {piece : List Char} (mem : piece ∈ pieces separator text) :
    occurrences [separator] piece = [] := by
  obtain ⟨first, later⟩ := occurrences_of_piecesFrom separator 0 text
  rcases List.mem_cons.mp mem with rfl | mem
  · exact first 0
  · exact later piece mem

end Pieces

/-! ### The bracket that ends a text -/

theorem Balanced.exists_partner_of_last (balanced : Balanced text)
    (last : text.getLast? = some ']') :
    ∃ outer inner, text = outer ++ '[' :: inner ++ [']'] ∧ Nested inner := by
  obtain ⟨outer, inner, split, -, closed, -⟩ := lastOccurrence?_partner balanced last
  exact ⟨outer, inner, split, nested_iff_balanced.mpr closed⟩

/-- Whatever is in front of the two brackets, the backward search comes to the partner first. -/
theorem lastOccurrence?_of_partner {outer inner : List Char} (nested : Nested inner) :
    lastOccurrence? ['['] (outer ++ '[' :: inner ++ [']']) = some (byteLength outer) := by
  have closed : depth ('[' :: [] ++ (inner ++ [']'])) = 0 :=
    (nested.balanced.group .square).depth_eq_zero
  simpa using lastOccurrence?_at closed (lastOccurrence?_opener nested.balanced) outer

/-- In a text whose brackets nest, the forward search lists in increasing order exactly the
offsets at which a token without brackets stands with no bracket open, and the backward search
finds the last of them; cutting at any of them leaves two texts whose brackets nest. Cut at all
offsets of one character, the text falls into pieces that it is joined from and in which the
character does not stand outside. The backward search for an opening square bracket finds the
partner of the one that ends the text. -/
theorem split_at_occurrences (nests : firstFault? text = none) (nonempty : token ≠ [])
    (plain : Unbracketed token) :
    (occurrences token text).Pairwise (· < ·) ∧
    (∀ offset, offset ∈ occurrences token text ↔ StandsOutside token text offset) ∧
    lastOccurrence? token text = (occurrences token text).getLast? ∧
    (∀ offset ∈ occurrences token text, ∃ front back, text = front ++ back ∧
      take? offset text = some front ∧ drop? offset text = some back ∧
      firstFault? front = none ∧ firstFault? back = none) ∧
    (∀ c, token = [c] → ∃ parts,
      piecesAt? text c.utf8Size 0 (occurrences token text) = some parts ∧
      token.intercalate parts = text ∧ ∀ part ∈ parts, occurrences token part = []) ∧
    (text.getLast? = some ']' →
      (∃ outer inner, text = outer ++ '[' :: inner ++ [']'] ∧ Nested inner) ∧
      ∀ outer inner, text = outer ++ '[' :: inner ++ [']'] → Nested inner →
        lastOccurrence? ['['] text = some (byteLength outer)) := by
  have balanced := (firstFault?_eq_none_iff text).mp nests
  refine ⟨occurrencesFrom_increasing nonempty plain 0 0 text,
    fun offset => mem_occurrences_iff balanced nonempty plain,
    lastOccurrence?_eq_getLast? nonempty plain balanced.depth_eq_zero, ?cut, ?pieces, ?last⟩
  case cut =>
    intro offset mem
    rw [mem_occurrences_iff balanced nonempty plain] at mem
    obtain ⟨front, back, split, taken, dropped, first, rest⟩ := balanced.cut mem
    exact ⟨front, back, split, taken, dropped, (firstFault?_eq_none_iff front).mpr first,
      (firstFault?_eq_none_iff back).mpr rest⟩
  case pieces =>
    rintro c rfl
    exact ⟨pieces c text, piecesAt?_occurrences c text, intercalate_pieces c text,
      fun part mem => occurrences_of_mem_pieces mem⟩
  case last =>
    intro last
    refine ⟨balanced.exists_partner_of_last last, ?_⟩
    rintro outer inner rfl nested
    exact lastOccurrence?_of_partner nested

/-- Two places of a token that overlap, and commas outside and inside brackets. -/
theorem split_at_occurrences_samples :
    StandsOutside "**".toList "(a**b)***[c]".toList 7 ∧
    lastOccurrence? "**".toList "(a**b)***[c]".toList = some 7 ∧
    lastOccurrence? ['['] "(a**b)***[c]".toList = some 9 ∧
    ∃ parts, piecesAt? "é,f(x,y),[]".toList 1 0 [2, 9] = some parts ∧
      [','].intercalate parts = "é,f(x,y),[]".toList := by
  have stars : Unbracketed "**".toList := by simp [Unbracketed, BracketMark.ofChar?]
  have comma : Unbracketed [','] := by simp [Unbracketed, BracketMark.ofChar?]
  obtain ⟨-, listed, last, -, -, partner⟩ := @split_at_occurrences "**".toList
    "(a**b)***[c]".toList (by decide) (by decide) stars
  obtain ⟨-, -, -, -, parts, -⟩ := @split_at_occurrences [','] "é,f(x,y),[]".toList (by decide)
    (by decide) comma
  obtain ⟨found, cut, rejoined, -⟩ := parts ',' rfl
  refine ⟨(listed 7).mp (by decide), by rw [last]; decide, ?_, ?_⟩
  · exact (partner (by decide)).2 "(a**b)***".toList ['c'] (by decide)
      (nested_iff_balanced.mpr (by decide))
  · have places : occurrences [','] "é,f(x,y),[]".toList = [2, 9] := by decide
    rw [places] at cut
    exact ⟨found, cut, rejoined⟩

end SelectionFormula.Text
