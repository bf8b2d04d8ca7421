import SelectionFormula.Proofs.Reading.Frame
import SelectionFormula.Proofs.Reading.Unbalanced

/-!
Where `*` gives way.

The level of `*` passes a text on when one of its sides is rejected. That is meant for the `**`
whose half the last `*` of a text may be, and it is of use for nothing else: a text that no
looser operator splits and whose last `*` is not the end of a `**` is accepted just where both
sides of that `*` are (`read_product`).

* `isChain_of_accepted` — an accepted text is a chain of operands, unless it has a condition's
  mark outside brackets. An operator in front of a chain belongs to its first operand and a
  position behind it to its last.
* `sides_of_chain` — both sides of the last `*` of a chain are chains, if it is no half of `**`.
-/

namespace SelectionFormula

open Text

/-! ### Operands that grow -/

theorem UnaryOperator.exists_of_head {text : List Char}
    (head : ¬ ∀ c ∈ text.head?, c ≠ '~' ∧ c ≠ '!') :
    ∃ op : UnaryOperator, op ≠ .negate ∧ ∃ rest, text = op.symbol.toList ++ rest := by
  cases text with
  | nil => exact absurd (by simp) head
  | cons c rest =>
    by_cases complement : c = '~'
    · exact ⟨.complement, by simp, rest, by rw [complement]; rfl⟩
    · have negation : c = '!' := by simpa [complement] using head
      exact ⟨.not, by simp, rest, by rw [negation]; rfl⟩

/-- An operator without an operand is no formula. -/
theorem Expr.read_unary_ne_ok {op : UnaryOperator} (op_ne : op ≠ .negate) (e : Expr) :
    read op.symbol.toList ≠ .ok e := by
  obtain ⟨c, symbol, blank, closing⟩ :
      ∃ c, op.symbol.toList = [c] ∧ isBlank c = false ∧ isClosing c = false := by
    cases op
    · exact absurd rfl op_ne
    · exact ⟨'~', rfl, by decide, by decide⟩
    · exact ⟨'!', rfl, by decide, by decide⟩
  obtain ⟨rejection, rejected⟩ := rejected_of_last blank closing []
  rw [symbol]
  exact fun accepted => nomatch rejected.symm.trans accepted

namespace Atom

theorem exists_of_unsplit {chars : List Char} {e : Expr} (accepted : Expr.read chars = .ok e)
    (unsplit : Unsplit chars) : ∃ atom : Atom, atom.chars = chars :=
  ⟨⟨chars, e, accepted, unsplit.all⟩, rfl⟩

variable (atom : Atom)

theorem exists_pad {lead trail : List Char} (leading : AllBlank lead) (trailing : AllBlank trail) :
    ∃ padded : Atom, padded.chars = lead ++ atom.chars ++ trail := by
  have blanks : ∀ {gap : List Char}, AllBlank gap → Unsplit gap :=
    fun blank => .of_allBlank blank fun _ => isOperatorChar_eq_false_of_isBlank
  exact exists_of_unsplit (Expr.read_pad leading trailing atom.accepted)
    (((blanks leading).append atom.unsplit).append (blanks trailing))

/-- An operator in front of an operand makes another one. -/
theorem exists_unary {op : UnaryOperator} (op_ne : op ≠ .negate) :
    ∃ grown : Atom, grown.chars = op.symbol.toList ++ atom.chars := by
  obtain ⟨trail, trailing, split⟩ := trimEnd_split atom.chars
  have accepted : Expr.read (trimEnd atom.chars) = .ok atom.tree := by
    rw [Expr.read_trimEnd (Expr.trim_ne_nil_of_accepted atom.accepted), atom.accepted]
  have unsplit : Unsplit (trimEnd atom.chars) := atom.unsplit.trimEnd
  have read : Expr.read (op.symbol.toList ++ trimEnd atom.chars) = .ok (.unary op atom.tree) := by
    rw [Expr.read_unary_eq op_ne (Expr.ne_nil_of_accepted accepted) (trimEnd_last _)
      unsplit.balanced unsplit.all, Expr.readUnary, accepted]
    rfl
  obtain ⟨bare, bare_eq⟩ := exists_of_unsplit read
    ((OutsideAll.of_unbracketed (Expr.unbracketed_unary op)
      (Expr.isOperatorChar_unary op_ne)).append unsplit)
  obtain ⟨grown, grown_eq⟩ := bare.exists_pad allBlank_nil trailing
  refine ⟨grown, ?_⟩
  conv_rhs => rw [split]
  rw [grown_eq, bare_eq, List.nil_append, List.append_assoc]

/-- What is behind an operator in front of an operand is one. -/
theorem exists_operand {op : UnaryOperator} (op_ne : op ≠ .negate) {lead rest : List Char}
    (leading : AllBlank lead) (split : atom.chars = lead ++ (op.symbol.toList ++ rest)) :
    ∃ operand : Atom, operand.chars = rest := by
  obtain ⟨trail, trailing, rest_eq⟩ := trimEnd_split rest
  have unsplit : Unsplit rest := by
    have whole := atom.unsplit
    rw [split] at whole
    have inner := (whole.of_append leading.unbracketed.depth_eq_zero).2
    exact (inner.of_append (Expr.unbracketed_unary op).depth_eq_zero).2
  have core : Expr.read (op.symbol.toList ++ trimEnd rest) = .ok atom.tree := by
    refine Expr.read_of_trim_eq ?_ atom.accepted
    rw [split]
    conv_lhs => rw [rest_eq, ← List.append_assoc, ← List.append_assoc,
      trim_append_allBlank trailing]
    simpa using trim_pad leading allBlank_nil (op.symbol.toList ++ trimEnd rest)
  have nonempty : trimEnd rest ≠ [] := by
    intro empty
    rw [empty, List.append_nil] at core
    exact Expr.read_unary_ne_ok op_ne atom.tree core
  have plain := unsplit.trimEnd
  rw [Expr.read_unary_eq op_ne nonempty (trimEnd_last _) plain.balanced plain.all] at core
  obtain ⟨e, accepted, -⟩ := map_eq_ok_iff.mp core
  rw [mapError_eq_ok_iff] at accepted
  have whole := Expr.read_pad allBlank_nil trailing accepted
  rw [List.nil_append, ← rest_eq] at whole
  exact exists_of_unsplit whole unsplit

/-- A position behind an operand makes another one. -/
theorem exists_index {position : List Char} {p : Expr} (accepted : Expr.read position = .ok p) :
    ∃ grown : Atom, grown.chars = atom.chars ++ ('[' :: position ++ [']']) := by
  have inside := Expr.balanced_of_accepted accepted
  induction size : atom.chars.length using Nat.strongRecOn generalizing atom with
  | ind n ih =>
    by_cases bare : ∀ c ∈ (trimStart atom.chars).head?, c ≠ '~' ∧ c ≠ '!'
    · have read := (carries_index inside atom bare).accepted p _ accepted rfl
      rw [Frame.fill, Frame.front, Frame.back, List.append_assoc, List.append_assoc] at read
      exact exists_of_unsplit read (atom.unsplit.append (.of_group inside .square))
    · obtain ⟨op, op_ne, rest, start⟩ := UnaryOperator.exists_of_head bare
      have leading := allBlank_takeWhile atom.chars
      have split : atom.chars = atom.chars.takeWhile isBlank ++ (op.symbol.toList ++ rest) := by
        rw [← start, trimStart, List.takeWhile_append_dropWhile]
      obtain ⟨operand, rfl⟩ := atom.exists_operand op_ne leading split
      have shorter : operand.chars.length < n := by
        have lengths := congrArg List.length split
        have := List.length_pos_iff.mpr op.symbol_ne_nil
        simp only [List.length_append] at lengths
        omega
      obtain ⟨inner, inner_eq⟩ := ih _ shorter operand rfl
      obtain ⟨glued, glued_eq⟩ := inner.exists_unary op_ne
      obtain ⟨grown, grown_eq⟩ := glued.exists_pad leading allBlank_nil
      refine ⟨grown, ?_⟩
      conv_rhs => rw [split]
      rw [grown_eq, glued_eq, inner_eq]
      simp

end Atom

/-! ### Chains -/

/-- The text is one of operands with operators between them. -/
def IsChain (text : List Char) : Prop :=
  ∃ chain : Chain, chain.chars = text

namespace IsChain

variable {text left right : List Char}

theorem of_atom (atom : Atom) : IsChain atom.chars :=
  ⟨⟨atom, []⟩, List.append_nil _⟩

theorem of_unsplit {e : Expr} (accepted : Expr.read text = .ok e) (unsplit : Unsplit text) :
    IsChain text := by
  obtain ⟨atom, rfl⟩ := Atom.exists_of_unsplit accepted unsplit
  exact of_atom atom

/-- Two chains around an operator. -/
theorem binary {op : BinaryOperator} (firm : op.isShift = false) (front : IsChain left)
    (behind : IsChain right) : IsChain (left ++ op.symbol.toList ++ right) := by
  obtain ⟨⟨first, links⟩, rfl⟩ := front
  obtain ⟨⟨atom, later⟩, rfl⟩ := behind
  refine ⟨⟨first, links ++ ⟨op, firm, atom⟩ :: later⟩, ?_⟩
  simp only [Chain.chars, linkChars_append, linkChars, List.append_assoc]

/-- What makes an operand of the first one makes a chain of a chain. -/
theorem grow_first {front : List Char}
    (grows : ∀ atom : Atom, ∃ grown : Atom, grown.chars = front ++ atom.chars)
    (chain : IsChain text) : IsChain (front ++ text) := by
  obtain ⟨⟨first, links⟩, rfl⟩ := chain
  obtain ⟨grown, grown_eq⟩ := grows first
  refine ⟨⟨grown, links⟩, ?_⟩
  simp only [Chain.chars, grown_eq, List.append_assoc]

/-- What makes an operand of the last one makes a chain of a chain. -/
theorem grow_last {behind : List Char}
    (grows : ∀ atom : Atom, ∃ grown : Atom, grown.chars = atom.chars ++ behind)
    (chain : IsChain text) : IsChain (text ++ behind) := by
  obtain ⟨⟨first, links⟩, rfl⟩ := chain
  rcases List.eq_nil_or_concat links with rfl | ⟨before, last, rfl⟩
  · obtain ⟨grown, grown_eq⟩ := grows first
    refine ⟨⟨grown, []⟩, ?_⟩
    simp only [Chain.chars, linkChars, grown_eq, List.append_nil]
  · obtain ⟨grown, grown_eq⟩ := grows last.atom
    refine ⟨⟨first, before ++ [⟨last.op, last.firm, grown⟩]⟩, ?_⟩
    simp only [Chain.chars, List.concat_eq_append, linkChars_append, linkChars, grown_eq,
      List.append_assoc, List.append_nil]

theorem pad {lead trail : List Char} (leading : AllBlank lead) (trailing : AllBlank trail)
    (chain : IsChain text) : IsChain (lead ++ text ++ trail) := by
  refine grow_last (fun atom => ?_) (grow_first (fun atom => ?_) chain)
  · simpa using atom.exists_pad allBlank_nil trailing
  · simpa using atom.exists_pad leading allBlank_nil

end IsChain

/-! ### Accepted texts are chains -/

/-- No mark of a condition stands outside brackets. -/
structure Unconditional (text : List Char) : Prop where
  question : lastOccurrence? ['?'] text = none
  colon : lastOccurrence? [':'] text = none

namespace Unconditional

variable {text s t : List Char}

theorem of_append (whole : Unconditional (s ++ t)) (closed : depth t = 0) :
    Unconditional s ∧ Unconditional t := by
  have parts : ∀ {c : Char}, lastOccurrence? [c] (s ++ t) = none →
      lastOccurrence? [c] s = none ∧ lastOccurrence? [c] t = none := fun absent =>
    ⟨lastOccurrence?_eq_none_of_append_right (by simp) closed absent,
      lastOccurrence?_eq_none_of_append_left (by simp) absent⟩
  obtain ⟨question, question'⟩ := parts whole.question
  obtain ⟨colon, colon'⟩ := parts whole.colon
  exact ⟨⟨question, colon⟩, ⟨question', colon'⟩⟩

theorem trim (whole : Unconditional text) : Unconditional (trim text) :=
  ⟨Expr.lastOccurrence?_trim (by simp) whole.question,
    Expr.lastOccurrence?_trim (by simp) whole.colon⟩

end Unconditional

namespace Expr

/-- Where no level applies a name or a literal is a word. -/
theorem wordChars_of_atom {text : List Char} {e : Expr}
    (passes : ∀ level ∈ Level.table, Passes text level) (accepted : Form.atom text = .ok e) :
    ∀ c ∈ text, isWordChar c = true := by
  unfold Form.atom at accepted
  split at accepted
  · next isName =>
    exact (wordChars_of_isFunctionName (isFunctionName_of_isArgumentName isName)).2
  · split at accepted
    · next value literal => exact wordChars_of_number? literal passes
    · cases accepted

section Parts

variable {text : List Char} (parts : ∀ part : List Char, part.length < text.length →
  ∀ e, read part = .ok e → Unconditional part → IsChain part)

include parts

/-- An accepted text is a chain when the accepted shorter texts are. -/
theorem isChain_of_answers {e : Expr} (answers : Answers text (.ok e))
    (unconditional : Unconditional text) (accepted : read text = .ok e) : IsChain text := by
  have balanced := balanced_of_accepted accepted
  generalize answer_eq : (Except.ok e : Except Stop Expr) = answer at answers
  cases answers with
  | unbalanced _ => cases answer_eq
  | empty _ => cases answer_eq
  | lopsided _ => cases answer_eq
  | conditional _ _ question _ => exact nomatch unconditional.question.symm.trans question
  | @binary op left right _ reaches split found =>
    have symbol := List.length_pos_iff.mpr op.symbol_ne_nil
    have lengths := congrArg List.length split
    simp only [List.length_append] at lengths
    obtain ⟨l, hl, later⟩ := bind_eq_ok_iff.mp answer_eq.symm
    obtain ⟨r, hr, -⟩ := bind_eq_ok_iff.mp later
    rw [mapError_eq_ok_iff] at hr
    have back := (balanced_of_accepted hr).depth_eq_zero
    rw [split] at unconditional ⊢
    obtain ⟨front, behind⟩ := unconditional.of_append back
    obtain ⟨front, -⟩ := front.of_append (unbracketed_symbol op).depth_eq_zero
    exact .binary (isShift_eq_false_of_reaches reaches found) (parts left (by omega) l hl front)
      (parts right (by omega) r hr behind)
  | @unary op operand _ reaches split =>
    have symbol := List.length_pos_iff.mpr op.symbol_ne_nil
    have lengths := congrArg List.length split
    simp only [List.length_append] at lengths
    obtain ⟨e', hr, -⟩ := map_eq_ok_iff.mp answer_eq.symm
    rw [mapError_eq_ok_iff] at hr
    have op_ne : op ≠ .negate := by
      rintro rfl
      exact absurd reaches.1 (by decide)
    rw [split] at unconditional ⊢
    obtain ⟨-, behind⟩ := unconditional.of_append (balanced_of_accepted hr).depth_eq_zero
    exact (parts operand (by omega) e' hr behind).grow_first fun atom => atom.exists_unary op_ne
  | @group inner _ _ split =>
    have inside := balanced_of_accepted (mapError_eq_ok_iff.mp answer_eq.symm)
    exact .of_unsplit accepted (split ▸ .of_group inside .round)
  | unopened _ _ _ => cases answer_eq
  | @array list _ _ split found =>
    have inside := (@balanced_of_partner text [] list balanced split found).2
    exact .of_unsplit accepted (split ▸ .of_group inside .square)
  | @index items position _ _ split nonempty _ =>
    have lengths := congrArg List.length split
    simp only [List.length_append, List.length_cons] at lengths
    obtain ⟨a, ha, later⟩ := bind_eq_ok_iff.mp answer_eq.symm
    obtain ⟨p, hp, -⟩ := bind_eq_ok_iff.mp later
    rw [mapError_eq_ok_iff] at hp
    rw [split, List.append_assoc] at unconditional ⊢
    obtain ⟨front, -⟩ :=
      unconditional.of_append ((balanced_of_accepted hp).group .square).depth_eq_zero
    exact (parts items (by omega) a ha front).grow_last fun atom => atom.exists_index hp
  | @call name arguments _ _ split isName =>
    obtain ⟨es, accepted', -⟩ := bind_eq_ok_iff.mp answer_eq.symm
    obtain ⟨items, rfl, -, all⟩ := items_of_readList accepted'
    rw [List.append_assoc] at split
    have word : Unsplit name := .of_wordChars (wordChars_of_isFunctionName isName).2
      fun _ => isOperatorChar_eq_false_of_isWordChar
    exact .of_unsplit accepted (split ▸ word.append (.of_group (balanced_of_items all) .round))
  | unnamed _ _ => cases answer_eq
  | atom _ passes =>
    exact .of_unsplit accepted (.of_wordChars (wordChars_of_atom passes answer_eq.symm)
      fun _ => isOperatorChar_eq_false_of_isWordChar)

end Parts

/-- An accepted text without a condition's mark outside brackets is a chain. -/
theorem isChain_of_accepted {text : List Char} {e : Expr} (accepted : read text = .ok e)
    (unconditional : Unconditional text) : IsChain text := by
  induction size : text.length using Nat.strongRecOn generalizing text e with
  | ind n ih =>
    obtain ⟨answer, answers, read_eq⟩ := answers_of_read text
    obtain ⟨trail, trailing, split⟩ := trim_split text
    have trimmed : read (trim text) = .ok e :=
      read_of_trim_eq (trim_eq_self (trimmed_trim text)).symm accepted
    rw [split]
    refine .pad (allBlank_takeWhile text) trailing ?_
    rw [read_eq, mapError_eq_ok_iff] at accepted
    subst accepted
    refine isChain_of_answers (fun part shorter e accepted unconditional => ?_) answers
      unconditional.trim trimmed
    exact ih part.length (by have := length_trim_le text; omega) accepted unconditional rfl

end Expr

/-! ### The last `*` of a chain -/

/-- The links in front of the last one whose operator is written with a `*`, that link, and
those behind. -/
theorem exists_last_star (links : List Link) :
    (∀ link ∈ links, ¬ ['*'] <:+: link.op.symbol.toList) ∨
    ∃ before link after, links = before ++ link :: after ∧
      (link.op = .times ∨ link.op = .power) ∧
      ∀ later ∈ after, ¬ ['*'] <:+: later.op.symbol.toList := by
  induction links with
  | nil => exact .inl (by simp)
  | cons link links ih =>
    rcases ih with none | ⟨before, last, after, rfl, star, none⟩
    · by_cases here : ['*'] <:+: link.op.symbol.toList
      · exact .inr ⟨[], link, links, rfl, star_of_isInfix here, none⟩
      · exact .inl (List.forall_mem_cons.mpr ⟨here, none⟩)
    · exact .inr ⟨link :: before, last, after, rfl, star, none⟩

/-- Both sides of the last `*` of a chain are chains, if it is no half of a `**`. -/
theorem sides_of_chain {left right : List Char} (chain : IsChain (left ++ '*' :: right))
    (last : lastOccurrence? ['*'] (left ++ '*' :: right) = some (byteLength left))
    (single : left.getLast? ≠ some '*') : IsChain left ∧ IsChain right := by
  obtain ⟨⟨first, links⟩, chars⟩ := chain
  rw [Chain.chars] at chars
  have star : ∀ c ∈ ['*'], isOperatorChar c = true := by simp [isOperatorChar]
  rcases exists_last_star links with none | ⟨before, link, after, rfl, op, none⟩
  · rw [← chars, lastOccurrence?_chain (by simp) star first none] at last
    cases last
  · have behind := lastOccurrence?_chain (by simp) star link.atom none
    have closed : depth (['*'] ++ (link.atom.chars ++ linkChars after)) = 0 := by
      have operand := Expr.balanced_of_accepted link.atom.accepted
      have mark : Balanced ['*'] := rfl
      exact (mark.append (operand.append (balanced_linkChars after))).depth_eq_zero
    -- A `*` with what is behind the link is where the last `*` of the text is.
    have sides : ∀ {front : List Char},
        first.chars ++ linkChars (before ++ link :: after) =
          front ++ ['*'] ++ (link.atom.chars ++ linkChars after) →
        left = front ∧ right = link.atom.chars ++ linkChars after := by
      intro front cut
      have found := lastOccurrence?_at closed behind front
      rw [← cut, chars, last] at found
      rw [chars, List.append_assoc] at cut
      obtain ⟨same, tail⟩ := append_inj_of_byteLength cut (Option.some.inj found)
      exact ⟨same, (List.cons.inj tail).2⟩
    rcases op with times | power
    · obtain ⟨rfl, rfl⟩ := @sides (first.chars ++ linkChars before) (by
        simp [linkChars_append, linkChars, times, BinaryOperator.symbol])
      exact ⟨⟨⟨first, before⟩, rfl⟩, ⟨⟨link.atom, after⟩, rfl⟩⟩
    · obtain ⟨rfl, -⟩ := @sides (first.chars ++ linkChars before ++ ['*']) (by
        simp [linkChars_append, linkChars, power, BinaryOperator.symbol])
      exact absurd (by simp) single

/-! ### Reading a product -/

/-- The symbols of the levels in front of that of `*`, the shifts apart: these are written with
the symbol of another one. -/
def looserThanTimes : List String :=
  ["?", ":", "||", "&&", "|", "^", "&", "==", "<=", ">=", "<", ">", "+", "-"]

namespace Expr

theorem symbol_of_looser {op : BinaryOperator}
    (mem : Level.binary op ∈ (Level.binary .times).looser) :
    op.symbol ∈ looserThanTimes ∨ op.symbol ∈ ["<<", ">>", ">>>"] := by
  revert mem
  cases op <;> decide

/-- The levels in front of that of `*` do not apply where none of their symbols occurs. -/
theorem passes_of_looserThanTimes {text : List Char}
    (absent : ∀ symbol ∈ looserThanTimes, lastOccurrence? symbol.toList text = none) :
    ∀ level ∈ (Level.binary .times).looser, Passes (trim text) level := by
  have longer : ∀ {c : Char} {rest : List Char}, lastOccurrence? [c] text = none →
      lastOccurrence? (c :: rest) text = none := by
    intro c rest none
    rw [lastOccurrence?_eq_none_iff (by simp)] at none ⊢
    exact fun s t split closed front => none s t split closed
      ((List.prefix_append [c] rest).trans front)
  intro level mem
  cases level with
  | conditional =>
    exact passes_conditional_of_absent (absent "?" (by decide)) (absent ":" (by decide))
  | unary op =>
    exfalso
    revert mem
    cases op <;> decide
  | binary op =>
    refine passes_binary_of_absent ?_
    rcases symbol_of_looser mem with listed | shift
    · exact absent _ listed
    · have below := absent "<" (by decide)
      have above := absent ">" (by decide)
      simp only [List.mem_cons, List.not_mem_nil, or_false] at shift
      rcases shift with symbol | symbol | symbol <;> rw [symbol]
      · exact longer below
      · exact longer above
      · exact longer above

/-- Where no looser operator occurs outside brackets and the last `*` is not the end of a `**`,
a text is read as the product of the sides of that `*`, and as nothing else. -/
theorem read_product {left right : List Char}
    (absent : ∀ symbol ∈ looserThanTimes,
      lastOccurrence? symbol.toList (left ++ '*' :: right) = none)
    (last : lastOccurrence? ['*'] (left ++ '*' :: right) = some (byteLength left))
    (single : left.getLast? ≠ some '*') :
    (∀ e, read (left ++ '*' :: right) = .ok e ↔
      ∃ l r, read left = .ok l ∧ read right = .ok r ∧ e = .binary .times l r) ∧
    ((∃ stop, read left = .error stop) ∨ (∃ stop, read right = .error stop) →
      ∃ rejection, read (left ++ '*' :: right) = .error (.rejected rejection)) := by
  have cut : left ++ '*' :: right = left ++ BinaryOperator.times.symbol.toList ++ right := by
    simp [BinaryOperator.symbol]
  have product : ∀ {l r : Expr}, read left = .ok l → read right = .ok r →
      read (left ++ '*' :: right) = .ok (.binary .times l r) := by
    intro l r hl hr
    have passes := passes_of_looserThanTimes absent
    obtain ⟨s, t, split, bytes, -, behind⟩ := exists_of_lastOccurrence?_eq_some (by simp) last
    rw [List.append_assoc] at split
    obtain ⟨rfl, tail⟩ := append_inj_of_byteLength split bytes
    obtain ⟨-, rfl⟩ := List.cons.inj tail
    rw [cut] at passes ⊢
    exact read_binary hl hr behind passes
  have sides : ∀ {e : Expr}, read (left ++ '*' :: right) = .ok e →
      ∃ l r, read left = .ok l ∧ read right = .ok r := by
    intro e accepted
    have chain := isChain_of_accepted accepted
      ⟨absent "?" (by decide), absent ":" (by decide)⟩
    obtain ⟨⟨front, rfl⟩, ⟨behind, rfl⟩⟩ := sides_of_chain chain last single
    exact ⟨_, _, front.read_chars, behind.read_chars⟩
  refine ⟨fun e => ⟨fun accepted => ?_, ?_⟩, fun rejected => ?_⟩
  · obtain ⟨l, r, hl, hr⟩ := sides accepted
    exact ⟨l, r, hl, hr, Except.ok.inj (accepted.symm.trans (product hl hr))⟩
  · rintro ⟨l, r, hl, hr, rfl⟩
    exact product hl hr
  · cases outcome : read (left ++ '*' :: right) with
    | error stop =>
      obtain ⟨rejection, rfl, -⟩ := located_read _ stop outcome
      exact ⟨rejection, rfl⟩
    | ok e =>
      exfalso
      obtain ⟨l, r, hl, hr⟩ := sides outcome
      rcases rejected with ⟨stop, told⟩ | ⟨stop, told⟩
      · exact nomatch hl.symm.trans told
      · exact nomatch hr.symm.trans told

/-- A `**` in front of the last `*`, with an operand behind it and with none. -/
theorem read_product_behindPower :
    (∀ right ∈ [" i".toList, " #".toList],
      (∀ symbol ∈ looserThanTimes,
        lastOccurrence? symbol.toList ("x**y ".toList ++ '*' :: right) = none) ∧
      lastOccurrence? ['*'] ("x**y ".toList ++ '*' :: right) = some (byteLength "x**y ".toList)) ∧
    "x**y ".toList.getLast? ≠ some '*' ∧
    read "x**y * i".toList = .ok (.binary .times
      (.binary .power (.argument "x") (.argument "y")) (.argument "i")) ∧
    ∃ rejection, read "x**y * #".toList = .error (.rejected rejection) := by
  have absent : ∀ right ∈ [" i".toList, " #".toList],
      (∀ symbol ∈ looserThanTimes,
        lastOccurrence? symbol.toList ("x**y ".toList ++ '*' :: right) = none) ∧
      lastOccurrence? ['*'] ("x**y ".toList ++ '*' :: right) =
        some (byteLength "x**y ".toList) := by
    decide
  have single : "x**y ".toList.getLast? ≠ some '*' := by decide
  obtain ⟨index_absent, index_last⟩ := absent " i".toList (by simp)
  obtain ⟨mark_absent, mark_last⟩ := absent " #".toList (by simp)
  have power : read "x**y ".toList = .ok (.binary .power (.argument "x") (.argument "y")) := by cbv
  have index : read " i".toList = .ok (.argument "i") := by cbv
  have mark : read " #".toList = .error (.rejected ⟨.unparsableToken, 1⟩) := by cbv
  exact ⟨absent, single,
    ((read_product index_absent index_last single).1 _).mpr ⟨_, _, power, index, rfl⟩,
    (read_product mark_absent mark_last single).2 (.inr ⟨_, mark⟩)⟩

end Expr

end SelectionFormula
