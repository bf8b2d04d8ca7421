import SelectionFormula.Proofs.Reading.Chain
import SelectionFormula.Proofs.Reading.Operand

/-!
Texts told by what stands outside their brackets.

`OutsideAll kind` says that a text is balanced and that its characters outside brackets are
all of one kind. Such texts put together are one again, and any balanced text is one in
brackets. Two kinds matter to reading: without operators between operands (`Unsplit`) no
level splits a text, and without commas (`Undivided`) it is one item where it stands in a
list.

* `undivided_of_accepted` — no accepted text has a comma outside its brackets.
* `read_between` — the unsplit texts around an operator are read as its operands.
-/

namespace SelectionFormula

open Text

/-- A balanced text whose characters outside brackets are all of one kind. -/
structure OutsideAll (kind : Char → Prop) (text : List Char) : Prop where
  balanced : Balanced text
  all : ∀ c ∈ outside text, kind c

/-- No operator between operands stands outside brackets. -/
abbrev Unsplit (text : List Char) : Prop :=
  OutsideAll (isOperatorChar · = false) text

/-- No comma stands outside brackets: the text is one item where it stands in a list. -/
abbrev Undivided (text : List Char) : Prop :=
  OutsideAll (· ≠ ',') text

namespace OutsideAll

variable {kind : Char → Prop} {s t : List Char}

theorem append (front : OutsideAll kind s) (behind : OutsideAll kind t) :
    OutsideAll kind (s ++ t) where
  balanced := front.balanced.append behind.balanced
  all := by
    intro c outer
    rw [outside_append front.balanced.depth_eq_zero] at outer
    rcases List.mem_append.mp outer with outer | outer
    · exact front.all c outer
    · exact behind.all c outer

theorem of_append (whole : OutsideAll kind (s ++ t)) (closed : depth s = 0) :
    OutsideAll kind s ∧ OutsideAll kind t := by
  obtain ⟨front, behind⟩ := whole.balanced.of_append closed
  have outer := outside_append closed t
  exact ⟨⟨front, fun c mem => whole.all c (by simp [outer, mem])⟩,
    ⟨behind, fun c mem => whole.all c (by simp [outer, mem])⟩⟩

/-- The blanks at the end are outside brackets. -/
theorem trimEnd (whole : OutsideAll kind s) : OutsideAll kind (trimEnd s) := by
  obtain ⟨trail, trailing, split⟩ := trimEnd_split s
  have closed := whole.balanced.depth_eq_zero
  rw [split, depth_append, trailing.unbracketed.depth_eq_zero, Int.add_zero] at closed
  rw [split] at whole
  exact (whole.of_append closed).1

theorem of_group (balanced : Balanced s) (bracket : Bracket) :
    OutsideAll kind (bracket.opener :: s ++ [bracket.closer]) where
  balanced := balanced.group bracket
  all := by
    intro c outer
    rw [balanced.outside_group bracket] at outer
    cases outer

theorem of_unbracketed (unbracketed : Unbracketed s) (all : ∀ c ∈ s, kind c) :
    OutsideAll kind s :=
  ⟨unbracketed.balanced, fun c outer => all c (outside_subset outer)⟩

theorem of_wordChars (words : ∀ c ∈ s, isWordChar c = true)
    (holds : ∀ c, isWordChar c = true → kind c) : OutsideAll kind s :=
  of_unbracketed (Expr.unbracketed_of_wordChars fun c mem => .inl (words c mem))
    fun c mem => holds c (words c mem)

theorem of_allBlank (blank : AllBlank s) (holds : ∀ c, isBlank c = true → kind c) :
    OutsideAll kind s :=
  of_unbracketed blank.unbracketed fun c mem => holds c (blank c mem)

end OutsideAll

theorem isOperatorChar_eq_false_of_isBlank {c : Char} (blank : isBlank c = true) :
    isOperatorChar c = false :=
  contains_eq_false (by decide) blank

theorem ne_comma_of_isBlank {c : Char} (blank : isBlank c = true) : c ≠ ',' := by
  rintro rfl
  exact absurd blank (by decide)

theorem ne_comma_of_isWordChar {c : Char} (word : isWordChar c = true) : c ≠ ',' := by
  rintro rfl
  exact absurd word (by decide)

/-! ### Texts with a tree -/

theorem Atom.unsplit (atom : Atom) : Unsplit atom.chars :=
  ⟨Expr.balanced_of_accepted atom.accepted, atom.plain⟩

/-- A text that does not begin with a bracket begins with a character outside brackets. -/
theorem Unsplit.head {s : List Char} (unsplit : Unsplit s) :
    ∀ c ∈ s.head?, isOperatorChar c = false := by
  intro c head
  cases s with
  | nil => cases head
  | cons d rest =>
    cases Option.some.inj head
    by_contra operator
    rw [Bool.not_eq_false] at operator
    have here := unsplit.all c
      (mem_outside_iff.mpr ⟨[], rest, rfl, rfl, nesting_of_isOperatorChar operator⟩)
    rw [operator] at here
    cases here

/-- The grammar puts commas only inside brackets. -/
theorem undivided_of_derives {text : List Char} {e : Expr} (derives : Derives text e) :
    Undivided text := by
  induction derives with
  | padded leading trailing _ ih =>
    exact ((OutsideAll.of_allBlank leading fun _ => ne_comma_of_isBlank).append ih).append
      (.of_allBlank trailing fun _ => ne_comma_of_isBlank)
  | constant _ words => exact .of_wordChars words fun _ => ne_comma_of_isWordChar
  | argument isName =>
    exact .of_wordChars (wordChars_of_isFunctionName (isFunctionName_of_isArgumentName isName)).2
      fun _ => ne_comma_of_isWordChar
  | @unary op _ _ _ _ ih =>
    refine (OutsideAll.of_unbracketed (Expr.unbracketed_unary op) ?_).append ih
    cases op <;> simp [UnaryOperator.symbol]
  | @binary op _ _ _ _ _ _ _ left right =>
    refine (left.append (.of_unbracketed (Expr.unbracketed_symbol op) ?_)).append right
    cases op <;> simp [BinaryOperator.symbol]
  | conditional _ _ _ condition yes no =>
    have question : Undivided ['?'] := ⟨rfl, by simp [outside, outsideFrom]⟩
    have colon : Undivided [':'] := ⟨rfl, by simp [outside, outsideFrom]⟩
    simpa using ((condition.append (question.append yes)).append (colon.append no))
  | group _ ih => exact .of_group ih.balanced .round
  | array _ ih => exact .of_group (Expr.balanced_items fun item mem => (ih item mem).balanced) .square
  | index _ _ items position =>
    rw [List.append_assoc]
    exact items.append (.of_group position.balanced .square)
  | @call name _ items isName _ _ _ ih =>
    have arguments : Balanced (listed (items.map (·.1))) :=
      Expr.balanced_items fun item mem => (ih item mem).balanced
    rw [List.append_assoc]
    exact (OutsideAll.of_wordChars (wordChars_of_isFunctionName isName).2
      fun _ => ne_comma_of_isWordChar).append (.of_group arguments .round)

theorem undivided_of_accepted {text : List Char} {e : Expr} (accepted : Expr.read text = .ok e) :
    Undivided text :=
  undivided_of_derives (Expr.derives_of_read accepted)

/-! ### Two texts around an operator -/

section Between

variable {op : BinaryOperator} {left right token : List Char}

/-- A token that is no part of the operator between two such texts does not occur outside
brackets. -/
theorem lastOccurrence?_between (front : Unsplit left) (behind : Unsplit right) (nonempty : token ≠ [])
    (operator : ∀ c ∈ token, isOperatorChar c = true)
    (absent : ¬ token <:+: op.symbol.toList) :
    lastOccurrence? token (left ++ op.symbol.toList ++ right) = none := by
  obtain ⟨c, rest, rfl⟩ := List.exists_cons_of_ne_nil nonempty
  have head := operator c List.mem_cons_self
  have plain := nesting_of_isOperatorChar head
  have not_outside : ∀ {text : List Char}, Unsplit text → c ∉ outside text := by
    intro text isUnsplit outer
    exact nomatch (isUnsplit.all c outer).symm.trans head
  have tail : lastOccurrence? (c :: rest) right = none :=
    lastOccurrence?_eq_none_of_outside plain behind.balanced.depth_eq_zero (not_outside behind)
  have back : Balanced (op.symbol.toList ++ right) :=
    (Expr.unbracketed_symbol op).balanced.append behind.balanced
  rw [List.append_assoc, lastOccurrence?_append_of_outside plain front.balanced.depth_eq_zero
    (not_outside front) back.depth_eq_zero,
    lastOccurrence?_append_of_not_isInfix nonempty operator behind.head absent tail]
  rfl

theorem lastOccurrence?_behind (behind : Unsplit right) :
    lastOccurrence? op.symbol.toList (op.symbol.toList.tail ++ right) = none := by
  have operator := isOperatorChar_symbol op
  have positive := List.length_pos_iff.mpr op.symbol_ne_nil
  refine lastOccurrence?_append_of_not_isInfix op.symbol_ne_nil operator behind.head ?_ ?_
  · intro inside
    have := inside.length_le
    rw [List.length_tail] at this
    omega
  · obtain ⟨c, rest, symbol⟩ := List.exists_cons_of_ne_nil op.symbol_ne_nil
    have head := operator c (by simp [symbol])
    rw [symbol]
    refine lastOccurrence?_eq_none_of_outside (nesting_of_isOperatorChar head)
      behind.balanced.depth_eq_zero fun outer => ?_
    exact nomatch (behind.all c outer).symm.trans head

/-- A looser operator is part of another only where `*` is of `**`. -/
theorem power_of_isInfix {inner : BinaryOperator}
    (mem : Level.binary inner ∈ (Level.binary op).looser) (firm : op.isShift = false)
    (inside : inner.symbol.toList <:+: op.symbol.toList) : inner = .times ∧ op = .power := by
  revert mem firm inside
  cases inner <;> cases op <;> decide

/-- The levels in front of the operator between two such texts do not apply. -/
theorem passes_between (firm : op.isShift = false) (front : Unsplit left) (behind : Unsplit right) :
    ∀ level ∈ (Level.binary op).looser,
      Expr.Passes (trim (left ++ op.symbol.toList ++ right)) level := by
  intro level mem
  cases level with
  | conditional =>
    have absent : ∀ c ∈ ['?', ':'],
        lastOccurrence? [c] (left ++ op.symbol.toList ++ right) = none := by
      intro c mark
      refine lastOccurrence?_between front behind (by simp) ?_ ?_
      · revert c
        simp [isOperatorChar]
      · rw [List.singleton_infix_iff]
        revert c
        cases op <;> simp [BinaryOperator.symbol]
    exact Expr.passes_conditional_of_absent (absent '?' (by simp)) (absent ':' (by simp))
  | unary other =>
    exfalso
    revert mem
    cases other <;> cases op <;> decide
  | binary inner =>
    by_cases inside : inner.symbol.toList <:+: op.symbol.toList
    · obtain ⟨rfl, rfl⟩ := power_of_isInfix mem firm inside
      refine Expr.passes_times_of_power ?_ behind.balanced.depth_eq_zero
      refine lastOccurrence?_eq_none_of_outside rfl behind.balanced.depth_eq_zero fun outer => ?_
      exact nomatch behind.all '*' outer
    · exact Expr.passes_binary_of_absent (lastOccurrence?_between front behind inner.symbol_ne_nil
        (isOperatorChar_symbol inner) inside)

/-- The unsplit texts around an operator that does not give way are read as its operands. -/
theorem read_between (firm : op.isShift = false) (other : op ≠ .times) (front : Unsplit left)
    (behind : Unsplit right) (nonblank : trim right ≠ []) :
    Expr.read (left ++ op.symbol.toList ++ right) = Expr.readBinary op left right := by
  have keeps : Form.givesWay op = false := by
    cases op <;> first | rfl | exact absurd rfl other
  exact Expr.read_binary_eq front.balanced behind.balanced nonblank (lastOccurrence?_behind behind)
    (passes_between firm front behind) (.inl keeps)

end Between

end SelectionFormula
