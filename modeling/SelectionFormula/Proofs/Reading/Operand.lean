import SelectionFormula.Proofs.Text.Matching
import SelectionFormula.Proofs.Reading.Acceptance

/-!
Reading texts that have only the characters of words outside their brackets.

No level applies to such a text (`passes_of_sealed`), so it is read as the operand
that its ends tell: a group, an array, an array and a position, a call, or a word.
An operator in front of one (`read_unary`) and the two marks of a condition
between three (`read_conditional`) are the only ones that their levels find.
-/

namespace SelectionFormula

open Text

/-- Only the characters of words stand outside the brackets of a balanced text. -/
structure Sealed (text : List Char) : Prop where
  nonempty : text ≠ []
  balanced : Balanced text
  words : ∀ c ∈ outside text, isWordChar c = true

theorem nesting_of_isBlank {c : Char} (blank : isBlank c = true) : nesting c = 0 := by
  rw [nesting, ofChar?_of_isBlank blank]

theorem isOperatorChar_eq_false_of_isWordChar {c : Char} (word : isWordChar c = true) :
    isOperatorChar c = false :=
  contains_eq_false (by decide) word

namespace Sealed

variable {text : List Char}

/-- A sealed text begins with a bracket or with the character of a word. -/
theorem head (sealed : Sealed text) : ∀ c ∈ text.head?, nesting c = 0 → isWordChar c = true := by
  intro c head plain
  obtain ⟨d, rest, rfl⟩ := List.exists_cons_of_ne_nil sealed.nonempty
  cases Option.some.inj head
  exact sealed.words c (mem_outside_iff.mpr ⟨[], rest, rfl, rfl, plain⟩)

/-- A sealed text ends with a bracket or with the character of a word. -/
theorem last (sealed : Sealed text) : ∀ c ∈ text.getLast?, nesting c = 0 → isWordChar c = true := by
  intro c last plain
  obtain ⟨front, rfl⟩ := List.getLast?_eq_some_iff.mp last
  refine sealed.words c (mem_outside_iff.mpr ⟨front, [], rfl, ?_, plain⟩)
  have closed := sealed.balanced.depth_eq_zero
  rw [depth_append, depth_cons, plain, depth_nil] at closed
  omega

theorem trimmed (sealed : Sealed text) : Trimmed text where
  head := by
    intro c head
    by_contra blank
    rw [Bool.not_eq_false] at blank
    have word := sealed.head c head (nesting_of_isBlank blank)
    rw [isBlank_eq_false_of_isWordChar word] at blank
    cases blank
  last := by
    intro c last
    by_contra blank
    rw [Bool.not_eq_false] at blank
    have word := sealed.last c last (nesting_of_isBlank blank)
    rw [isBlank_eq_false_of_isWordChar word] at blank
    cases blank

theorem not_mem_outside (sealed : Sealed text) {c : Char} (other : isWordChar c = false) :
    c ∉ outside text := by
  intro outer
  rw [sealed.words c outer] at other
  cases other

end Sealed

namespace Expr

variable {text : List Char}

/-- A text without operators between operands outside its brackets is passed over by the
levels of those. -/
theorem passes_of_plain (closed : depth text = 0)
    (plain : ∀ c ∈ outside text, isOperatorChar c = false) {level : Level}
    (between : ∀ op, level ≠ .unary op) : Passes text level := by
  have absent : ∀ (c : Char) (rest : List Char), isOperatorChar c = true →
      lastOccurrence? (c :: rest) text = none := by
    intro c rest operator
    refine lastOccurrence?_eq_none_of_outside (nesting_of_isOperatorChar operator) closed
      fun outer => ?_
    rw [plain c outer] at operator
    cases operator
  cases level with
  | conditional => exact passes_conditional_iff.mpr ⟨absent '?' [] rfl, absent ':' [] rfl⟩
  | unary op => exact absurd rfl (between op)
  | binary op =>
    obtain ⟨c, rest, symbol⟩ := List.exists_cons_of_ne_nil op.symbol_ne_nil
    refine passes_binary ?_
    rw [symbol]
    exact absent c rest (isOperatorChar_symbol op c (by simp [symbol]))

theorem isWordChar_unary (op : UnaryOperator) :
    ∃ c, op.symbol.toList = [c] ∧ nesting c = 0 ∧ isWordChar c = false := by
  cases op
  · exact ⟨'-', rfl, rfl, by decide⟩
  · exact ⟨'~', rfl, rfl, by decide⟩
  · exact ⟨'!', rfl, rfl, by decide⟩

/-- No level applies to a sealed text. -/
theorem passes_of_sealed (sealed : Sealed text) (level : Level) : Passes text level := by
  cases level with
  | unary op =>
    rw [passes_unary_iff]
    rintro ⟨operand, rfl⟩
    obtain ⟨c, symbol, plain, word⟩ := isWordChar_unary op
    have := sealed.head c (by rw [symbol]; rfl) plain
    rw [word] at this
    cases this
  | _ =>
    exact passes_of_plain sealed.balanced.depth_eq_zero
      (fun c outer => isOperatorChar_eq_false_of_isWordChar (sealed.words c outer)) (by simp)

/-- A sealed text is read as the operand that its ends tell. -/
theorem read_of_sealed (sealed : Sealed text) : read text = Form.operand (readWithin text) := by
  rw [read_trimmed sealed.trimmed, readTrimmed_of_operand sealed.balanced sealed.nonempty]
  exact fun level _ => passes_of_sealed sealed level

/-- No level of the table applies to a text without operators between operands outside its
brackets and without one in front. -/
theorem passes_of_bare (closed : depth text = 0)
    (plain : ∀ c ∈ outside text, isOperatorChar c = false)
    (bare : ∀ c ∈ text.head?, c ≠ '~' ∧ c ≠ '!') : ∀ level ∈ Level.table, Passes text level := by
  intro level mem
  cases level with
  | unary op =>
    rw [passes_unary_iff]
    rintro ⟨operand, rfl⟩
    cases op with
    | negate => exact absurd mem (by decide)
    | complement => exact (bare '~' rfl).1 rfl
    | not => exact (bare '!' rfl).2 rfl
  | _ => exact passes_of_plain closed plain (by simp)

/-! ### Words -/

theorem sealed_of_wordChars (nonempty : text ≠ []) (words : ∀ c ∈ text, isWordChar c = true) :
    Sealed text where
  nonempty := nonempty
  balanced := (unbracketed_of_wordChars fun c mem => .inl (words c mem)).balanced
  words := fun c outer => words c (outside_subset outer)

theorem sealed_of_isFunctionName (isName : isFunctionName text = true) : Sealed text := by
  obtain ⟨nonempty, words⟩ := wordChars_of_isFunctionName isName
  exact sealed_of_wordChars nonempty words

/-- A word does not end with a bracket. -/
theorem operand_of_wordChars (words : ∀ c ∈ text, isWordChar c = true) :
    Form.operand (readWithin text) = Form.atom text := by
  have round : text.getLast? ≠ some ')' := by
    intro last
    exact absurd (words _ (List.mem_of_getLast? last)) (by decide)
  have square : text.getLast? ≠ some ']' := by
    intro last
    exact absurd (words _ (List.mem_of_getLast? last)) (by decide)
  rw [Form.operand, if_neg (fun both => round both.2), if_neg square, if_neg round]

theorem read_of_wordChars (nonempty : text ≠ []) (words : ∀ c ∈ text, isWordChar c = true) :
    read text = Form.atom text := by
  rw [read_of_sealed (sealed_of_wordChars nonempty words), operand_of_wordChars words]

theorem read_argument (isName : isArgumentName text = true) :
    read text = .ok (.argument (String.ofList text)) := by
  obtain ⟨nonempty, words⟩ :=
    wordChars_of_isFunctionName (isFunctionName_of_isArgumentName isName)
  rw [read_of_wordChars nonempty words, Form.atom, if_pos isName]

theorem read_constant {value : Binary64} (accepted : Literal.number? text = some value)
    (words : ∀ c ∈ text, isWordChar c = true) : read text = .ok (.constant value) := by
  have nonempty : text ≠ [] := by
    rintro rfl
    exact nomatch number?_nil.symm.trans accepted
  have other : ¬ isArgumentName text = true := by
    intro isName
    exact nomatch (Literal.number?_of_isArgumentName isName).symm.trans accepted
  rw [read_of_wordChars nonempty words, Form.atom, if_neg other, accepted]

/-! ### Brackets -/

theorem sealed_group {inner : List Char} (balanced : Balanced inner) (bracket : Bracket) :
    Sealed (bracket.opener :: inner ++ [bracket.closer]) where
  nonempty := by simp
  balanced := balanced.group bracket
  words := by
    intro c outer
    rw [balanced.outside_group bracket] at outer
    cases outer

theorem sealed_behind {front inner : List Char} (sealed : Sealed front)
    (balanced : Balanced inner) (bracket : Bracket) :
    Sealed (front ++ bracket.opener :: inner ++ [bracket.closer]) where
  nonempty := by simp
  balanced := by
    rw [List.append_assoc]
    exact sealed.balanced.append (balanced.group bracket)
  words := by
    intro c outer
    rw [List.append_assoc, outside_append sealed.balanced.depth_eq_zero] at outer
    rcases List.mem_append.mp outer with outer | outer
    · exact sealed.words c outer
    · rw [balanced.outside_group bracket] at outer
      cases outer

theorem read_group_eq {inner : List Char} (balanced : Balanced inner) :
    read ('(' :: inner ++ [')']) = readGroup inner := by
  have sealed : Sealed ('(' :: inner ++ [')']) := sealed_group balanced .round
  rw [read_of_sealed sealed, operand_group rfl]

theorem read_group {inner : List Char} {e : Expr} (accepted : read inner = .ok e) :
    read ('(' :: inner ++ [')']) = .ok e := by
  rw [read_group_eq (balanced_of_accepted accepted), readGroup, mapError_eq_ok_iff]
  exact accepted

/-- The position behind a text that no level applies to. -/
theorem read_index_eq {items position : List Char} (nonempty : items ≠ [])
    (firm : ∀ c ∈ items.head?, isBlank c = false) (balanced : Balanced items)
    (plain : ∀ c ∈ outside items, isOperatorChar c = false)
    (bare : ∀ c ∈ items.head?, c ≠ '~' ∧ c ≠ '!') (inside : Balanced position) :
    read (items ++ '[' :: position ++ [']']) = readIndex items position := by
  obtain ⟨text, split⟩ : ∃ text, text = items ++ '[' :: position ++ [']'] := ⟨_, rfl⟩
  have group : Balanced ('[' :: position ++ [']']) := inside.group .square
  have head : text.head? = items.head? := by
    rw [split, List.append_assoc, List.head?_append_of_ne_nil _ nonempty]
  have trimmed : Trimmed text := by
    refine ⟨fun c mem => firm c (head ▸ mem), ?_⟩
    rw [split, List.getLast?_append_of_ne_nil _ (by simp)]
    rintro c ⟨⟩
    decide
  have whole : Balanced text := by
    rw [split, List.append_assoc]
    exact balanced.append group
  have outer : outside text = outside items := by
    rw [split, List.append_assoc, outside_append balanced.depth_eq_zero]
    exact (congrArg _ (inside.outside_group .square)).trans (List.append_nil _)
  have closed : depth (['['] ++ (position ++ [']'])) = 0 := group.depth_eq_zero
  have found := @lastOccurrence?_at '[' [] _ closed (lastOccurrence?_opener inside) items
  rw [← split, read_trimmed trimmed, readTrimmed_of_operand whole (by simp [split])]
  · exact operand_index split nonempty (by simpa [split] using found)
  · exact passes_of_bare whole.depth_eq_zero (outer ▸ plain) (head ▸ bare)

theorem read_index {items position : List Char} {a p : Expr} (sealed : Sealed items)
    (ha : read items = .ok a) (hp : read position = .ok p) :
    read (items ++ '[' :: position ++ [']']) = .ok (.index a p) := by
  have bare : ∀ c ∈ items.head?, c ≠ '~' ∧ c ≠ '!' := by
    intro c head
    constructor
    · rintro rfl
      exact absurd (sealed.head _ head rfl) (by decide)
    · rintro rfl
      exact absurd (sealed.head _ head rfl) (by decide)
  rw [read_index_eq sealed.nonempty sealed.trimmed.head sealed.balanced
    (fun c outer => isOperatorChar_eq_false_of_isWordChar (sealed.words c outer)) bare
    (balanced_of_accepted hp), readIndex, ha, hp]
  rfl

/-! ### Lists -/

/-- Accepted items one after the other, with a comma between two of them. -/
theorem readEach_eq {items : List (List Char × Expr)}
    (accepted : ∀ item ∈ items, read item.1 = .ok item.2) (start : Nat) :
    readEach start (items.map (·.1)) = .ok (items.map (·.2)) := by
  induction items generalizing start with
  | nil => rfl
  | cons item later ih =>
    have rest := ih (fun i mem => accepted i (List.mem_cons_of_mem item mem))
      (start + byteLength item.1 + 1)
    rw [List.map_cons, readEach, accepted item List.mem_cons_self, rest]
    rfl

/-- Pieces without a comma outside their brackets are the pieces of their list. -/
theorem piecesFrom_of_joined {first : List Char} {later : List (List Char)}
    (balanced : ∀ piece ∈ first :: later, Balanced piece)
    (free : ∀ piece ∈ first :: later, ',' ∉ outside piece) :
    piecesFrom ',' 0 (joined ',' first later) = (first, later) := by
  induction later generalizing first with
  | nil =>
    have whole := @piecesFrom_append ',' rfl 0 first (free first List.mem_cons_self) []
    rw [List.append_nil] at whole
    rw [joined_nil, whole, piecesFrom, List.append_nil]
  | cons next later ih =>
    have rest := ih (fun p mem => balanced p (List.mem_cons_of_mem first mem))
      (fun p mem => free p (List.mem_cons_of_mem first mem))
    rw [joined_cons, piecesFrom_append rfl (free first List.mem_cons_self),
      (balanced first List.mem_cons_self).depth_eq_zero, Int.add_zero, piecesFrom]
    have comma : (0 : Int) + nesting ',' = 0 := rfl
    dsimp only
    rw [comma, rest, if_pos ⟨rfl, rfl⟩, List.append_nil]

/-- A list of accepted items without a comma outside their brackets. -/
theorem readList_eq {items : List (List Char × Expr)}
    (accepted : ∀ item ∈ items, read item.1 = .ok item.2)
    (free : ∀ item ∈ items, ',' ∉ outside item.1) (start : Nat) :
    readList start (listed (items.map (·.1))) = .ok (items.map (·.2)) := by
  cases items with
  | nil => rfl
  | cons item later =>
    have nonempty : listed ((item :: later).map (·.1)) ≠ [] := by
      have := ne_nil_of_accepted (accepted item List.mem_cons_self)
      simp [listed, joined, this]
    have each : ∀ piece ∈ (item :: later).map (·.1), Balanced piece ∧ ',' ∉ outside piece := by
      intro piece mem
      obtain ⟨i, inside, rfl⟩ := List.mem_map.mp mem
      exact ⟨balanced_of_accepted (accepted i inside), free i inside⟩
    have parts : pieces ',' (listed ((item :: later).map (·.1))) = (item :: later).map (·.1) := by
      rw [pieces, List.map_cons, listed, piecesFrom_of_joined (fun p mem => (each p mem).1)
        (fun p mem => (each p mem).2)]
    rw [readList, if_neg nonempty, parts]
    exact readEach_eq accepted start

theorem balanced_listed {pieces : List (List Char)} (balanced : ∀ piece ∈ pieces, Balanced piece) :
    Balanced (listed pieces) := by
  cases pieces with
  | nil => exact balanced_nil
  | cons first later =>
    rw [listed]
    induction later generalizing first with
    | nil =>
      rw [joined_nil]
      exact balanced first List.mem_cons_self
    | cons next later ih =>
      have comma : Balanced [','] := rfl
      have rest := ih next fun p mem => balanced p (List.mem_cons_of_mem first mem)
      rw [joined_cons]
      exact (balanced first List.mem_cons_self).append (comma.append rest)

/-- The list between square brackets that enclose all of a text. -/
theorem read_array_eq {list : List Char} (balanced : Balanced list) :
    read ('[' :: list ++ [']']) = (readList 1 list).map .array := by
  have sealed : Sealed ('[' :: list ++ [']']) := sealed_group balanced .square
  have closed : depth (['['] ++ (list ++ [']'])) = 0 := (balanced.group .square).depth_eq_zero
  have found := @lastOccurrence?_at '[' [] _ closed (lastOccurrence?_opener balanced) []
  rw [read_of_sealed sealed, operand_array rfl (by simpa using found)]

theorem read_call_eq {name list : List Char} (isName : isFunctionName name = true)
    (balanced : Balanced list) : read (name ++ '(' :: list ++ [')']) = readCall name list := by
  have sealed : Sealed (name ++ '(' :: list ++ [')']) :=
    sealed_behind (sealed_of_isFunctionName isName) balanced .round
  rw [read_of_sealed sealed, operand_call rfl isName]

section Lists

variable {items : List (List Char × Expr)}

theorem balanced_items (balanced : ∀ item ∈ items, Balanced item.1) :
    Balanced (listed (items.map (·.1))) := by
  apply balanced_listed
  intro piece mem
  obtain ⟨item, inside, rfl⟩ := List.mem_map.mp mem
  exact balanced item inside

theorem balanced_of_items (accepted : ∀ item ∈ items, read item.1 = .ok item.2) :
    Balanced (listed (items.map (·.1))) :=
  balanced_items fun item inside => balanced_of_accepted (accepted item inside)

theorem read_array (accepted : ∀ item ∈ items, read item.1 = .ok item.2)
    (free : ∀ item ∈ items, ',' ∉ outside item.1) :
    read ('[' :: listed (items.map (·.1)) ++ [']']) = .ok (.array (items.map (·.2))) := by
  rw [read_array_eq (balanced_of_items accepted), readList_eq accepted free]
  rfl

theorem read_call {name : List Char} {function : MathFunction} (isName : isFunctionName name = true)
    (found : MathFunction.ofName? (String.ofList name) = some function)
    (fits : function.arity.accepts items.length = true)
    (accepted : ∀ item ∈ items, read item.1 = .ok item.2)
    (free : ∀ item ∈ items, ',' ∉ outside item.1) :
    read (name ++ '(' :: listed (items.map (·.1)) ++ [')']) =
      .ok (.call function (items.map (·.2))) := by
  rw [read_call_eq isName (balanced_of_items accepted), readCall, readList_eq accepted free, found]
  change (if function.arity.accepts (items.map (·.2)).length = true then _ else _) = _
  rw [List.length_map, if_pos fits]
  rfl

end Lists

/-! ### Operators around sealed texts -/

theorem isOperatorChar_unary {op : UnaryOperator} (op_ne : op ≠ .negate) :
    ∀ c ∈ op.symbol.toList, isOperatorChar c = false := by
  cases op
  · exact absurd rfl op_ne
  all_goals simp [UnaryOperator.symbol, isOperatorChar]

/-- Two operators in front of the same text are one. -/
theorem unary_eq_of_append {op op' : UnaryOperator} {s t : List Char}
    (same : op.symbol.toList ++ s = op'.symbol.toList ++ t) : op = op' := by
  cases op <;> cases op' <;> first | rfl | exact absurd (List.cons.inj same).1 (by decide)

/-- An operator in front of a text without operators between operands outside its brackets. -/
theorem read_unary_eq {op : UnaryOperator} (op_ne : op ≠ .negate) {operand : List Char}
    (nonempty : operand ≠ []) (firm : ∀ c ∈ operand.getLast?, isBlank c = false)
    (balanced : Balanced operand) (plain : ∀ c ∈ outside operand, isOperatorChar c = false) :
    read (op.symbol.toList ++ operand) = readUnary op operand := by
  have unbracketed := unbracketed_unary op
  have whole : Balanced (op.symbol.toList ++ operand) := unbracketed.balanced.append balanced
  have trimmed : Trimmed (op.symbol.toList ++ operand) := by
    constructor
    · cases op <;> (intro c head; cases Option.some.inj head; decide)
    · rwa [List.getLast?_append_of_ne_nil _ nonempty]
  rw [read_trimmed trimmed]
  refine @readTrimmed_of_level _ (.unary op) _ whole (by simp [nonempty]) ⟨?_, ?_⟩ (unary?_eq rfl)
  · cases op <;> first | exact absurd rfl op_ne | decide
  · intro level looser
    by_cases between : ∀ op', level ≠ .unary op'
    · refine passes_of_plain whole.depth_eq_zero ?_ between
      intro c outer
      rw [outside_append unbracketed.depth_eq_zero, unbracketed.outside_eq] at outer
      rcases List.mem_append.mp outer with mem | outer
      · exact isOperatorChar_unary op_ne c mem
      · exact plain c outer
    · -- Another operator in front has another symbol.
      obtain ⟨op', rfl⟩ := not_forall_not.mp between
      have other := List.mem_takeWhile_imp looser
      rw [passes_unary_iff]
      rintro ⟨rest, split⟩
      refine bne_iff_ne.mp other ?_
      rw [unary_eq_of_append split]

/-- An operator in front of a sealed text. -/
theorem read_unary {op : UnaryOperator} (op_ne : op ≠ .negate) {operand : List Char} {e : Expr}
    (sealed : Sealed operand) (accepted : read operand = .ok e) :
    read (op.symbol.toList ++ operand) = .ok (.unary op e) := by
  rw [read_unary_eq op_ne sealed.nonempty sealed.trimmed.last sealed.balanced
    (fun c outer => isOperatorChar_eq_false_of_isWordChar (sealed.words c outer)), readUnary,
    accepted]
  rfl

/-- A mark behind which there is none is the last one. -/
theorem lastOccurrence?_mark {c : Char} (operator : isOperatorChar c = true) (left : List Char)
    {right : List Char} (closed : depth right = 0) (free : c ∉ outside right) :
    lastOccurrence? [c] (left ++ c :: right) = some (byteLength left) := by
  have plain := nesting_of_isOperatorChar operator
  have here : depth ([c] ++ right) = 0 := by
    rw [depth_append, depth_cons, plain, closed]
    rfl
  have found := lastOccurrence?_at here (lastOccurrence?_eq_none_of_outside plain closed free) left
  rwa [List.append_assoc] at found

/-- A text that begins and ends with sealed texts has no blanks at its ends. -/
theorem trimmed_between {s t : List Char} (front : Sealed s) (behind : Sealed t)
    (mid : List Char) : Trimmed (s ++ mid ++ t) := by
  constructor
  · intro c head
    rw [List.append_assoc, List.head?_append_of_ne_nil _ front.nonempty] at head
    exact front.trimmed.head c head
  · intro c last
    rw [List.getLast?_append_of_ne_nil _ behind.nonempty] at last
    exact behind.trimmed.last c last

/-- The two marks of a condition between three sealed texts. -/
theorem read_conditional {condition yes no : List Char} {c y n : Expr}
    (conditionSealed : Sealed condition) (yesSealed : Sealed yes) (noSealed : Sealed no)
    (hc : read condition = .ok c) (hy : read yes = .ok y) (hn : read no = .ok n) :
    read (condition ++ " ? ".toList ++ yes ++ " : ".toList ++ no) = .ok (.conditional c y n) := by
  have hc' : read (condition ++ [' ']) = .ok c := read_space_behind hc
  have hy' : read (' ' :: yes ++ [' ']) = .ok y := read_space_behind (read_space_before hy)
  have hn' : read (' ' :: no) = .ok n := read_space_before hn
  obtain ⟨text, text_eq⟩ : ∃ text, text =
      (condition ++ [' ']) ++ '?' :: (' ' :: yes ++ [' ']) ++ ':' :: (' ' :: no) := ⟨_, rfl⟩
  have split : condition ++ " ? ".toList ++ yes ++ " : ".toList ++ no = text := by simp [text_eq]
  have questionMark : Balanced ['?'] := rfl
  have colonMark : Balanced [':'] := rfl
  have back : Balanced (' ' :: no) := balanced_of_accepted hn'
  have middle : Balanced ((' ' :: yes ++ [' ']) ++ ':' :: (' ' :: no)) :=
    (balanced_of_accepted hy').append (colonMark.append back)
  have balanced : Balanced text := by
    have front := (balanced_of_accepted hc').append (questionMark.append middle)
    simpa [text_eq] using front
  have question : lastOccurrence? ['?'] text = some (byteLength (condition ++ [' '])) := by
    have free : '?' ∉ outside ((' ' :: yes ++ [' ']) ++ ':' :: (' ' :: no)) := by
      have word : isWordChar '?' = false := by decide
      rw [outside_append (balanced_of_accepted hy').depth_eq_zero, List.cons_append,
        outside_cons rfl, outside_append yesSealed.balanced.depth_eq_zero, outside_cons rfl,
        outside_cons rfl, outside_cons rfl]
      simp [yesSealed.not_mem_outside word, noSealed.not_mem_outside word]
    have found := lastOccurrence?_mark rfl (condition ++ [' ']) middle.depth_eq_zero free
    simpa [text_eq] using found
  have colon : lastOccurrence? [':'] text =
      some (byteLength ((condition ++ [' ']) ++ '?' :: (' ' :: yes ++ [' ']))) := by
    have free : ':' ∉ outside (' ' :: no) := by
      rw [outside_cons rfl]
      simp [noSealed.not_mem_outside (show isWordChar ':' = false by decide)]
    rw [text_eq]
    exact lastOccurrence?_mark rfl _ back.depth_eq_zero free
  have trimmed : Trimmed text := by
    have between := trimmed_between conditionSealed noSealed (" ? ".toList ++ yes ++ " : ".toList)
    simpa [text_eq] using between
  have answer : Level.conditional.answer? (readWithin text) = some (.ok (.conditional c y n)) := by
    change Form.conditional? _ = _
    rw [conditional?_eq text_eq question colon, readConditional, hc', hy', hn']
    rfl
  rw [split, read_trimmed trimmed]
  refine readTrimmed_of_level balanced (by simp [text_eq]) ⟨by decide, ?_⟩ answer
  intro level looser
  cases looser

end Expr

end SelectionFormula
