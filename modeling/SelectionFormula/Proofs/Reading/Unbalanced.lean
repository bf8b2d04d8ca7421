import SelectionFormula.Formula
import SelectionFormula.Proofs.Text.Matching
import SelectionFormula.Proofs.Reading.Location
import SelectionFormula.Proofs.Reading.Operand

/-!
Which texts are told that their parentheses are unbalanced.

A text whose brackets do not nest is told so, at the first fault (`read_of_fault`).
A text whose brackets do nest can be told so too: an operand is told apart by its
first and last characters, and these need not be each other's. Then the text holds
two groups side by side (`SideBySide`), with no operator but `*` between them, and the
place reported is where the first of the two is closed (`sideBySide_of_read`).
-/

namespace SelectionFormula

open Text

/-- The places of a text where a pair of parentheses is closed that another one follows,
with no operator but `*` between the two outside brackets. -/
inductive SideBySide (text : List Char) : Nat → Prop where
  | intro {before inner between last after : List Char} :
      text = before ++ '(' :: inner ++ ')' :: between ++ '(' :: last ++ ')' :: after →
      Balanced inner → Balanced between → Balanced last →
      (∀ op : BinaryOperator, op ≠ .times → lastOccurrence? op.symbol.toList between = none) →
      lastOccurrence? ['?'] between = none → lastOccurrence? [':'] between = none →
      SideBySide text (byteLength (before ++ '(' :: inner))

/-- Such a place of a part is one of the text, moved by what is in front. -/
theorem SideBySide.within {text s mid t : List Char} {offset : Nat}
    (places : SideBySide mid offset) (split : text = s ++ mid ++ t) :
    SideBySide text (offset + byteLength s) := by
  obtain ⟨rfl, first, middle, second, operators, question, colon⟩ := places
  rename_i before inner between last after
  have moved : byteLength (before ++ '(' :: inner) + byteLength s =
      byteLength (s ++ before ++ '(' :: inner) := by
    rw [List.append_assoc, byteLength_append s, Nat.add_comm]
  rw [moved]
  exact @SideBySide.intro _ (s ++ before) inner between last (after ++ t) (by simp [split])
    first middle second operators question colon

namespace Expr

variable {text s t : List Char}

/-! ### Brackets that do not nest -/

theorem firstFault?_pad {lead trail : List Char} (leading : AllBlank lead)
    (trailing : AllBlank trail) (text : List Char) :
    firstFault? (lead ++ text ++ trail) =
      (firstFault? text).map (· + byteLength lead) := by
  rw [firstFault?, faultFrom?_append_of_unbracketed trailing.unbracketed,
    faultFrom?_append_of_balanced leading.unbracketed.balanced]
  exact faultFrom?_add [] 0 (byteLength lead) text

/-- A text whose brackets do not nest is rejected at the first fault. -/
theorem read_of_fault {fault : Nat} (found : firstFault? text = some fault) :
    read text = reject .unbalancedParentheses fault := by
  obtain ⟨trail, trailing, split⟩ := trim_split text
  have pad := firstFault?_pad (allBlank_takeWhile text) trailing (trim text)
  rw [← split, found] at pad
  obtain ⟨inner, inside, rfl⟩ := Option.map_eq_some_iff.mp pad.symm
  rw [read_eq, readTrimmed, inside]
  rfl

/-! ### Brackets that nest -/

/-- The levels that an operand passes leave no operator but `*` between two of its groups. -/
theorem sideBySide_of_passes {front inner between last : List Char}
    (passes : ∀ level ∈ Level.table, Passes text level)
    (split : text = front ++ '(' :: (inner ++ ')' :: between ++ '(' :: last) ++ [')'])
    (first : Balanced inner) (middle : Balanced between) (second : Balanced last) :
    SideBySide text (byteLength (front ++ '(' :: inner)) := by
  have back : depth ('(' :: last ++ [')']) = 0 := (second.group .round).depth_eq_zero
  have absent : ∀ {token : List Char}, token ≠ [] → lastOccurrence? token text = none →
      lastOccurrence? token between = none := by
    intro token nonempty none
    have cut : text = (front ++ '(' :: inner ++ [')']) ++ (between ++ ('(' :: last ++ [')'])) := by
      simp [split]
    rw [cut] at none
    exact lastOccurrence?_eq_none_of_append_right nonempty back
      (lastOccurrence?_eq_none_of_append_left nonempty none)
  obtain ⟨question, colon⟩ := passes_conditional_iff.mp (passes .conditional (by decide))
  refine @SideBySide.intro _ front inner between last [] (by simp [split]) first middle second ?_
    (absent (by simp) question) (absent (by simp) colon)
  intro op firm
  have mem : Level.binary op ∈ Level.table := by cases op <;> decide
  refine absent op.symbol_ne_nil (lastOccurrence?_eq_none_of_passes ?_ (passes _ mem))
  cases op <;> first | rfl | exact absurd rfl firm

/-- The list of an array or the position behind one, between the square brackets that end
the text. -/
theorem balanced_of_partner {text front list : List Char} (balanced : Balanced text)
    (split : text = front ++ '[' :: list ++ [']'])
    (found : lastOccurrence? ['['] text = some (byteLength front)) :
    Balanced front ∧ Balanced list := by
  have last : text.getLast? = some ']' := by
    rw [split, List.getLast?_append]
    rfl
  obtain ⟨outer, inner, cut, before, inside, opening⟩ := lastOccurrence?_partner balanced last
  have bytes := Option.some.inj (found.symm.trans opening)
  have same : front ++ ('[' :: list ++ [']']) = outer ++ ('[' :: inner ++ [']']) := by
    rw [← List.append_assoc, ← List.append_assoc, ← split, ← cut]
  obtain ⟨rfl, back⟩ := append_inj_of_byteLength same bytes
  obtain rfl : list = inner := by simpa using back
  exact ⟨before, inside⟩

/-- What a list is rejected for, its first item is or the items behind are. -/
theorem readEach_cut_eq_reject {piece list : List Char} {cause : Cause} {place : Nat}
    (balanced : Balanced piece) (free : ',' ∉ outside piece)
    (rejected : readEach (byteLength s) (pieces ',' (piece ++ ',' :: list)) = reject cause place) :
    (read piece).mapError (·.shifted (byteLength s)) = reject cause place ∨
      readEach (byteLength (s ++ piece ++ [','])) (pieces ',' list) = reject cause place := by
  have front : byteLength (s ++ piece ++ [',']) = byteLength s + byteLength piece + 1 := by
    simp only [byteLength_append, byteLength_cons, byteLength_nil]
    rfl
  rw [pieces_cut rfl balanced.depth_eq_zero free] at rejected
  rcases bind_eq_reject_iff.mp rejected with told | ⟨item, -, later⟩
  · exact .inl told
  · rcases bind_eq_reject_iff.mp later with others | ⟨items, -, finished⟩
    · exact .inr (front ▸ others)
    · cases finished

section Parts

variable (parts : ∀ part : List Char, part.length < text.length → Balanced part →
  ∀ place, read part = reject .unbalancedParentheses place → SideBySide part place)

include parts

theorem sideBySide_of_part {mid : List Char} {place : Nat} (split : text = s ++ mid ++ t)
    (shorter : mid.length < text.length) (balanced : Balanced mid)
    (rejected : (read mid).mapError (·.shifted (byteLength s)) =
      reject .unbalancedParentheses place) : SideBySide text place := by
  obtain ⟨inner, told, rfl⟩ := mapError_eq_reject_iff.mp rejected
  exact (parts mid shorter balanced inner told).within split

theorem sideBySide_of_front {place : Nat} (split : text = s ++ t) (shorter : t ≠ [])
    (balanced : Balanced s) (rejected : read s = reject .unbalancedParentheses place) :
    SideBySide text place := by
  refine @sideBySide_of_part text [] t parts s place (by simpa using split) ?_ balanced ?_
  · have := List.length_pos_iff.mpr shorter
    rw [split, List.length_append]
    omega
  · rwa [byteLength_nil, mapError_shifted_zero]

/-- The items of a balanced list, read one after the other. -/
theorem sideBySide_of_readEach {list : List Char} {place : Nat} (balanced : Balanced list)
    (split : text = s ++ list ++ t) (shorter : list.length < text.length)
    (rejected : readEach (byteLength s) (pieces ',' list) = reject .unbalancedParentheses place) :
    SideBySide text place := by
  induction balanced using Balanced.list_induction generalizing s with
  | whole piece balanced free =>
    rw [pieces_of_free rfl free] at rejected
    rcases bind_eq_reject_iff.mp rejected with told | ⟨item, -, later⟩
    · exact sideBySide_of_part parts split shorter balanced told
    · cases later
  | cut piece list balanced _ _ free ih =>
    rw [List.length_append, List.length_cons] at shorter
    rcases readEach_cut_eq_reject balanced free rejected with told | others
    · exact @sideBySide_of_part text s (',' :: list ++ t) parts piece place (by simp [split])
        (by omega) balanced told
    · exact ih (by simp [split]) (by omega) others

/-- Items in front of a closing bracket that was opened in front of them: the first piece
with the bracket in it is at fault there. -/
theorem sideBySide_or_of_readEach {inner rest : List Char} {place : Nat} (balanced : Balanced inner)
    (split : text = s ++ (inner ++ ')' :: rest) ++ t)
    (rejected : readEach (byteLength s) (pieces ',' (inner ++ ')' :: rest)) =
      reject .unbalancedParentheses place) :
    SideBySide text place ∨ place = byteLength (s ++ inner) := by
  induction balanced using Balanced.list_induction generalizing s with
  | whole piece balanced free =>
    -- No comma ends the piece in front of the bracket, so it goes on past it.
    obtain ⟨more, first⟩ : ∃ more, (piecesFrom ',' 0 (')' :: rest)).1 = ')' :: more := ⟨_, rfl⟩
    rw [pieces, piecesFrom_append rfl free, balanced.depth_eq_zero, Int.add_zero, first] at rejected
    have fault := read_of_fault (firstFault?_closer balanced .round more)
    rw [Bracket.closer] at fault
    rcases bind_eq_reject_iff.mp rejected with told | ⟨item, accepted, -⟩
    · obtain ⟨at_piece, inside, rfl⟩ := mapError_eq_reject_iff.mp told
      obtain ⟨-, rfl⟩ := reject_inj.mp (fault.symm.trans inside)
      exact .inr (by rw [byteLength_append, Nat.add_comm])
    · rw [mapError_eq_ok_iff, fault] at accepted
      cases accepted
  | cut piece list balanced _ _ free ih =>
    have lengths := congrArg List.length split
    simp only [List.length_append, List.length_cons] at lengths
    rw [List.append_assoc, List.cons_append] at rejected
    rcases readEach_cut_eq_reject balanced free rejected with told | others
    · exact .inl (@sideBySide_of_part text s (',' :: list ++ ')' :: rest ++ t) parts piece place
        (by simp [split]) (by omega) balanced told)
    · simpa using ih (by simp [split]) others

/-- The arguments of a call. -/
theorem sideBySide_of_readCall {name arguments : List Char} {place : Nat}
    (balanced : Balanced text) (passes : ∀ level ∈ Level.table, Passes text level)
    (split : text = name ++ '(' :: arguments ++ [')']) (isName : isFunctionName name = true)
    (rejected : readCall name arguments = reject .unbalancedParentheses place) :
    SideBySide text place := by
  have words := (wordChars_of_isFunctionName isName).2
  have plain : Unbracketed name := unbracketed_of_wordChars fun c mem => .inl (words c mem)
  have lengths := congrArg List.length split
  simp only [List.length_append, List.length_cons] at lengths
  have cut : text = (name ++ ['(']) ++ arguments ++ [')'] := by simp [split]
  rcases bind_eq_reject_iff.mp rejected with told | ⟨items, -, known⟩
  · unfold readList at told
    split at told
    · cases told
    · have group : Balanced ('(' :: arguments ++ [')']) := by
        rw [split, List.append_assoc] at balanced
        exact (balanced.of_append plain.depth_eq_zero).2
      rcases @Balanced.group_cases .round arguments group with
        inside | ⟨inner, between, last, rfl, first, middle, second⟩
      · exact sideBySide_of_readEach parts inside cut (by omega) told
      · have apart : text = (name ++ ['(']) ++ (inner ++ ')' :: (between ++ '(' :: last)) ++
            [')'] := by
          simpa [Bracket.opener, Bracket.closer] using cut
        rw [List.append_assoc] at told
        rcases sideBySide_or_of_readEach parts first apart told with inside | rfl
        · exact inside
        · have places := sideBySide_of_passes passes split first middle second
          simpa using places
  · split at known
    · simp [reject_inj] at known
    · split at known
      · cases known
      · simp [reject_inj] at known

/-- In every case of a reading of balanced brackets, what is told unbalanced is so in two
groups side by side, when that is so for the shorter texts. -/
theorem sideBySide_of_answers {answer : Except Stop Expr} {place : Nat} (balanced : Balanced text)
    (answers : Answers text answer) (rejected : answer = reject .unbalancedParentheses place) :
    SideBySide text place := by
  cases answers with
  | unbalanced fault =>
    rw [(firstFault?_eq_none_iff text).mpr balanced] at fault
    cases fault
  | empty _ => simp [reject_inj] at rejected
  | lopsided _ => simp [reject_inj] at rejected
  | @conditional condition yes no _ split question colon =>
    have lengths := congrArg List.length split
    simp only [List.length_append, List.length_cons] at lengths
    obtain ⟨front, -⟩ := @Balanced.of_lastOccurrence? ['?'] (by simp) text condition
      (yes ++ ':' :: no) balanced (by simpa using split) question
    obtain ⟨both, last⟩ := @Balanced.of_lastOccurrence? [':'] (by simp) text
      (condition ++ '?' :: yes) no balanced (by simpa using split) colon
    have middle := (@Balanced.of_append ['?'] yes (both.of_append front.depth_eq_zero).2 rfl).2
    have back := (@Balanced.of_append [':'] no last rfl).2
    rcases bind_eq_reject_iff.mp rejected with told | ⟨c, -, rejected⟩
    · exact sideBySide_of_front parts (t := '?' :: yes ++ ':' :: no) (by simpa using split)
        (by simp) front told
    rcases bind_eq_reject_iff.mp rejected with told | ⟨y, -, rejected⟩
    · exact sideBySide_of_part parts (t := ':' :: no) (by simpa using split) (by omega) middle told
    rcases bind_eq_reject_iff.mp rejected with told | ⟨n, -, rejected⟩
    · exact sideBySide_of_part parts (t := []) (by simpa using split) (by omega) back told
    · cases rejected
  | @binary op left right _ _ split found =>
    have symbol := List.length_pos_iff.mpr op.symbol_ne_nil
    have lengths := congrArg List.length split
    simp only [List.length_append] at lengths
    obtain ⟨front, rest⟩ := balanced.of_lastOccurrence? op.symbol_ne_nil split found
    have back := (rest.of_append (unbracketed_symbol op).depth_eq_zero).2
    rcases bind_eq_reject_iff.mp rejected with told | ⟨l, -, rejected⟩
    · exact sideBySide_of_front parts (t := op.symbol.toList ++ right) (by simpa using split)
        (by simp [op.symbol_ne_nil]) front told
    rcases bind_eq_reject_iff.mp rejected with told | ⟨r, -, rejected⟩
    · exact sideBySide_of_part parts (t := []) (by simpa using split) (by omega) back told
    · cases rejected
  | @unary op operand _ _ split =>
    have symbol := List.length_pos_iff.mpr op.symbol_ne_nil
    have lengths := congrArg List.length split
    simp only [List.length_append] at lengths
    rw [split] at balanced
    have back := (balanced.of_append (unbracketed_unary op).depth_eq_zero).2
    exact sideBySide_of_part parts (t := []) (by simpa using split) (by omega) back
      (map_eq_reject_iff.mp rejected)
  | @group inner _ passes split =>
    have lengths := congrArg List.length split
    simp only [List.length_append, List.length_cons] at lengths
    rw [split] at balanced
    rcases @Balanced.group_cases .round inner balanced with
      inside | ⟨first, between, last, rfl, before, middle, behind⟩
    · exact sideBySide_of_part parts (s := ['(']) (t := [')']) (by simpa using split) (by omega)
        inside rejected
    · -- The inner text begins with a group that its first bracket does not close.
      have fault := read_of_fault (firstFault?_closer before .round (between ++ '(' :: last))
      obtain ⟨place, told, rfl⟩ := mapError_eq_reject_iff.mp rejected
      rw [List.append_assoc] at told
      obtain ⟨-, rfl⟩ := reject_inj.mp (fault.symm.trans told)
      have places := @sideBySide_of_passes text [] first between last passes
        (by simpa [Bracket.opener, Bracket.closer] using split) before middle behind
      rwa [List.nil_append, byteLength_cons, Nat.add_comm] at places
  | unopened _ absent last =>
    obtain ⟨outer, inner, -, -, -, found⟩ := lastOccurrence?_partner balanced last
    cases absent.symm.trans found
  | @array list _ passes split found =>
    have lengths := congrArg List.length split
    simp only [List.length_append, List.length_cons] at lengths
    obtain ⟨-, inside⟩ := @balanced_of_partner text [] list balanced split found
    have told := map_eq_reject_iff.mp rejected
    unfold readList at told
    split at told
    · cases told
    · exact sideBySide_of_readEach parts (s := ['[']) (t := [']']) inside (by simpa using split)
        (by omega) told
  | @index items position _ _ split nonempty found =>
    have lengths := congrArg List.length split
    simp only [List.length_append, List.length_cons] at lengths
    obtain ⟨front, inside⟩ := balanced_of_partner balanced split found
    rcases bind_eq_reject_iff.mp rejected with told | ⟨a, -, rejected⟩
    · exact sideBySide_of_front parts (t := '[' :: position ++ [']']) (by simpa using split)
        (by simp) front told
    rcases bind_eq_reject_iff.mp rejected with told | ⟨p, -, rejected⟩
    · exact sideBySide_of_part parts (t := [']']) (by simpa using split) (by omega) inside told
    · cases rejected
  | call _ passes split isName =>
    exact sideBySide_of_readCall parts balanced passes split isName rejected
  | unnamed _ _ => simp [reject_inj] at rejected
  | atom _ _ =>
    unfold Form.atom at rejected
    split at rejected
    · cases rejected
    · split at rejected
      · cases rejected
      · simp [reject_inj] at rejected

end Parts

/-- A text whose brackets nest is told that they do not only at two groups side by side. -/
theorem sideBySide_of_read {text : List Char} {place : Nat} (balanced : Balanced text)
    (rejected : read text = reject .unbalancedParentheses place) : SideBySide text place := by
  induction size : text.length using Nat.strongRecOn generalizing text place with
  | ind n ih =>
    obtain ⟨answer, answers, read_eq⟩ := answers_of_read text
    obtain ⟨trail, -, split⟩ := trim_split text
    rw [read_eq] at rejected
    obtain ⟨inner, told, rfl⟩ := mapError_eq_reject_iff.mp rejected
    refine (sideBySide_of_answers ?_ (balanced_trim_iff.mpr balanced) answers told).within split
    intro part shorter balanced place told
    exact ih part.length (by have := length_trim_le text; omega) balanced told rfl

/-- Two groups one right behind the other are told unbalanced where the first is closed. -/
theorem read_of_groups {inner last : List Char} (first : Balanced inner) (second : Balanced last) :
    read (('(' :: inner ++ [')']) ++ '(' :: last ++ [')']) =
      reject .unbalancedParentheses (byteLength ('(' :: inner)) := by
  have sealed : Sealed (('(' :: inner ++ [')']) ++ '(' :: last ++ [')']) :=
    sealed_behind (sealed_group first .round) second .round
  have fault := read_of_fault (firstFault?_closer first .round ('(' :: last))
  rw [Bracket.closer] at fault
  rw [read_of_sealed sealed, @operand_group _ (inner ++ ')' :: '(' :: last) (by simp), readGroup,
    fault, byteLength_cons, Nat.add_comm]
  rfl

end Expr

/-- A formula's text is told that its parentheses are unbalanced at the first fault in how its
brackets nest; one whose brackets do nest only at two groups side by side, and at every two
with nothing between them. -/
theorem unbalanced_at_fault_or_groups (text : String) :
    (∀ fault, firstFault? text.toList = some fault → Formula.parse text =
      .error ⟨.unbalancedParentheses, charsBefore fault text.toList⟩) ∧
    (∀ location, Formula.parse text = .error ⟨.unbalancedParentheses, location⟩ →
      (∃ fault, firstFault? text.toList = some fault ∧
        location = charsBefore fault text.toList) ∨
      Balanced text.toList ∧ ∃ place, SideBySide text.toList place ∧
        location = charsBefore place text.toList) ∧
    (∀ inner last, text.toList = ('(' :: inner ++ [')']) ++ '(' :: last ++ [')'] →
      Balanced inner → Balanced last →
      Formula.parse text = .error ⟨.unbalancedParentheses, inner.length + 1⟩) := by
  refine ⟨?_, ?_, ?_⟩
  · intro fault found
    rw [Formula.parse, Expr.read_of_fault found]
    rfl
  · intro location rejected
    rw [Formula.parse] at rejected
    rcases outcome : Expr.read text.toList with (⟨cause, place⟩ | _) | tree <;>
      rw [outcome] at rejected <;> cases rejected
    cases fault : firstFault? text.toList with
    | some fault =>
      obtain ⟨-, rfl⟩ := reject_inj.mp ((Expr.read_of_fault fault).symm.trans outcome)
      exact .inl ⟨_, rfl, rfl⟩
    | none =>
      have balanced := (firstFault?_eq_none_iff _).mp fault
      exact .inr ⟨balanced, place, Expr.sideBySide_of_read balanced outcome, rfl⟩
  · intro inner last split first second
    rw [Formula.parse, split, Expr.read_of_groups first second]
    have front : ('(' :: inner ++ [')']) ++ '(' :: last ++ [')'] =
        ('(' :: inner) ++ ')' :: '(' :: (last ++ [')']) := by simp
    simp only [reject, Stop.rejectionIn]
    rw [front, charsBefore_append, List.length_cons]

/-- The nesting check finds no fault in two groups side by side. -/
theorem unbalanced_without_fault : ¬ ∀ text location,
    Formula.parse text = .error ⟨.unbalancedParentheses, location⟩ ↔
      ∃ fault, firstFault? text.toList = some fault ∧
        location = charsBefore fault text.toList := by
  intro same
  have told : Formula.parse "(1)(2)" = .error ⟨.unbalancedParentheses, 2⟩ := by cbv
  obtain ⟨fault, found, -⟩ := (same "(1)(2)" 2).mp told
  have none : firstFault? "(1)(2)".toList = none := by decide
  cases none.symm.trans found

end SelectionFormula
