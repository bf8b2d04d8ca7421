import SelectionFormula.Proofs.Text.Grammar
import SelectionFormula.Proofs.Reading.Operand

/-!
Which bracket a group or a call closes.

Reading an operand that ends with a parenthesis looks at its first character and at its first
opening parenthesis, and cuts there without asking which brackets belong together. `Partners`
says which do, by the grammar of nested brackets alone. Whatever is read is cut between partners
all the same, because what lies between them is read, and only nested texts are.

* `Partners.opening_unique` — a bracket closes at most one other.
* `partners_of_operand` — a group or a call that is read begins at the partner of its last
  parenthesis.
* `separated_of_derives` — behind a parenthesis that closes, the grammar opens no other one before
  a comma, an operator or a square bracket.
-/

namespace SelectionFormula

open Text

/-- Two brackets of one kind, by their offsets, with a nested text between them: the second
closes what the first opens. -/
def Partners (text : List Char) (opening closing : Nat) : Prop :=
  ∃ (before : List Char) (bracket : Bracket) (inner after : List Char),
    text = before ++ bracket.opener :: inner ++ bracket.closer :: after ∧ Nested inner ∧
      opening = byteLength before ∧ closing = byteLength (before ++ bracket.opener :: inner)

/-- The offset of the first opening parenthesis. -/
def firstOpening (text : List Char) : Nat :=
  byteLength (text.takeWhile (· != '('))

section Partners

variable {text : List Char} {opening opening' closing : Nat}

/-- Of two brackets with one partner neither comes before the other: it would be nested in
what lies between. -/
theorem Partners.not_lt (partners : Partners text opening closing)
    (partners' : Partners text opening' closing) : ¬ opening < opening' := by
  intro before
  obtain ⟨s, bracket, inner, after, split, nested, rfl, closes⟩ := partners
  obtain ⟨s', bracket', inner', after', split', nested', rfl, closes'⟩ := partners'
  have fronts := (append_inj_of_byteLength (split.symm.trans split') (closes.symm.trans closes')).1
  obtain ⟨mid, -, rfl⟩ := @split_between _ s inner s' inner' _ _ rfl fronts before
  have back := nested.balanced.depth_back_nonpos
  rw [depth_cons, nesting_opener, nested'.balanced.depth_eq_zero] at back
  omega

/-- A bracket closes at most one other. -/
theorem Partners.opening_unique (partners : Partners text opening closing)
    (partners' : Partners text opening' closing) : opening = opening' :=
  Nat.le_antisymm (Nat.not_lt.mp (partners'.not_lt partners))
    (Nat.not_lt.mp (partners.not_lt partners'))

/-- The parentheses around a nested text at the end. -/
theorem partners_around {front inner : List Char} (nested : Nested inner)
    (split : text = front ++ '(' :: inner ++ [')']) :
    Partners text (byteLength front) (byteLength text - 1) :=
  ⟨front, .round, inner, [], split, nested, rfl, Expr.byteLength_sub_one rfl split⟩

end Partners

namespace Expr

variable {text : List Char} {e : Expr}

theorem nested_of_accepted (accepted : read text = .ok e) : Nested text :=
  nested_iff_balanced.mpr (balanced_of_accepted accepted)

theorem nested_of_readList {start : Nat} {es : List Expr}
    (accepted : readList start text = .ok es) : Nested text := by
  obtain ⟨items, rfl, -, all⟩ := items_of_readList accepted
  exact nested_iff_balanced.mpr (balanced_of_items all)

/-- The parentheses of a group that is read are the text's first and last characters. -/
theorem partners_of_group (head : text.head? = some '(') (last : text.getLast? = some ')')
    (accepted : Form.operand (readWithin text) = .ok e) :
    Partners text 0 (byteLength text - 1) := by
  obtain ⟨back, opened⟩ := List.head?_eq_some_iff.mp head
  obtain ⟨inner, rfl⟩ := @exists_inner _ [] back _ _ opened last (by decide)
  have split : text = '(' :: inner ++ [')'] := opened
  rw [operand_group split, readGroup, mapError_eq_ok_iff] at accepted
  exact @partners_around text [] inner (nested_of_accepted accepted) split

/-- The parentheses of a call that is read are the text's first opening one and its last
character. -/
theorem partners_of_call (head : text.head? ≠ some '(') (last : text.getLast? = some ')')
    (accepted : Form.operand (readWithin text) = .ok e) :
    Partners text (firstOpening text) (byteLength text - 1) := by
  by_cases applies :
      (text.contains '(' && isFunctionName (text.takeWhile (· != '('))) = true
  · obtain ⟨opens, isName⟩ := Bool.and_eq_true_iff.mp applies
    obtain ⟨arguments, split⟩ := exists_call_split opens last
    rw [operand_call split isName, readCall] at accepted
    obtain ⟨es, items, -⟩ := bind_eq_ok_iff.mp accepted
    exact partners_around (nested_of_readList items) split
  · rw [Form.operand, if_neg (fun both => head both.1), if_neg (by simp [last]), if_pos last,
      Form.call] at accepted
    rw [if_neg applies] at accepted
    cases accepted

/-- A group or a call that is read begins at the partner of its last parenthesis. -/
theorem partners_of_operand (last : text.getLast? = some ')')
    (accepted : Form.operand (readWithin text) = .ok e) :
    Partners text (firstOpening text) (byteLength text - 1) := by
  by_cases head : text.head? = some '('
  · obtain ⟨back, opened⟩ := List.head?_eq_some_iff.mp head
    have first : firstOpening text = 0 := by
      rw [firstOpening, opened, List.takeWhile_cons_of_neg (by simp)]
      rfl
    rw [first]
    exact partners_of_group head last accepted
  · exact partners_of_call head last accepted

/-- Where no level applies and the last parenthesis has another partner than the first opening
one, a text is rejected. -/
theorem rejected_of_partners {opening : Nat} (trimmed : Trimmed text)
    (passes : ∀ level ∈ Level.table, Passes text level) (last : text.getLast? = some ')')
    (partners : Partners text opening (byteLength text - 1)) (other : opening ≠ firstOpening text) :
    ∃ rejection, read text = .error (.rejected rejection) := by
  refine exists_rejection fun e accepted => other ?_
  have balanced := balanced_of_accepted accepted
  have nonempty := ne_nil_of_accepted accepted
  rw [read_trimmed trimmed, readTrimmed_of_operand balanced nonempty passes] at accepted
  exact partners.opening_unique (partners_of_operand last accepted)

end Expr

/-! ### Groups side by side -/

/-- A character that ends what stands behind a group: a comma, a square bracket or an operator
between operands. -/
def isSeparator (c : Char) : Bool :=
  [',', '[', ']'].contains c || isOperatorChar c

/-- A character between two groups that puts them into one operand. -/
def isAdjoining (c : Char) : Bool :=
  c != '(' && c != ')' && !isSeparator c

/-- Whether a closed parenthesis is in front with only adjoining characters behind it; none when
another one is opened there. -/
def behindGroup? : Bool → List Char → Option Bool
  | behind, [] => some behind
  | behind, c :: text =>
    if c = ')' then behindGroup? true text
    else if c = '(' then if behind then none else behindGroup? false text
    else behindGroup? (behind && !isSeparator c) text

/-- No parenthesis is opened behind a closed one with only adjoining characters between
them. -/
def Separated (text : List Char) : Prop :=
  ∃ behind, behindGroup? false text = some behind

section Separated

variable {behind : Bool} {s t between : List Char}

theorem behindGroup?_append (behind : Bool) (s t : List Char) :
    behindGroup? behind (s ++ t) = (behindGroup? behind s).bind (behindGroup? · t) := by
  induction s generalizing behind with
  | nil => rfl
  | cons c s ih =>
    rw [List.cons_append, behindGroup?, behindGroup?]
    by_cases closes : c = ')'
    · rw [if_pos closes, if_pos closes, ih]
    by_cases opens : c = '('
    · rw [if_neg closes, if_neg closes, if_pos opens, if_pos opens]
      cases behind with
      | true => rfl
      | false => exact ih false
    · rw [if_neg closes, if_neg closes, if_neg opens, if_neg opens, ih]

theorem behindGroup?_of_adjoining (adjoining : ∀ c ∈ s, isAdjoining c = true) :
    behindGroup? behind s = some behind := by
  induction s with
  | nil => rfl
  | cons c s ih =>
    obtain ⟨⟨opens, closes⟩, separates⟩ : (c ≠ '(' ∧ c ≠ ')') ∧ isSeparator c = false := by
      simpa [isAdjoining] using adjoining c List.mem_cons_self
    rw [behindGroup?, if_neg closes, if_neg opens, separates, Bool.not_false, Bool.and_true]
    exact ih fun d mem => adjoining d (List.mem_cons_of_mem c mem)

theorem behindGroup?_separator {c : Char} (separates : isSeparator c = true) (t : List Char) :
    behindGroup? behind (c :: t) = behindGroup? false t := by
  have closes : c ≠ ')' := by
    rintro rfl
    exact absurd separates (by decide)
  have opens : c ≠ '(' := by
    rintro rfl
    exact absurd separates (by decide)
  rw [behindGroup?, if_neg closes, if_neg opens, separates, Bool.not_true, Bool.and_false]

theorem behindGroup?_separators {mid : List Char} (nonempty : mid ≠ [])
    (separates : ∀ c ∈ mid, isSeparator c = true) (t : List Char) :
    behindGroup? behind (mid ++ t) = behindGroup? false t := by
  induction mid generalizing behind with
  | nil => exact absurd rfl nonempty
  | cons c mid ih =>
    rw [List.cons_append, behindGroup?_separator (separates c List.mem_cons_self)]
    by_cases single : mid = []
    · rw [single, List.nil_append]
    · exact ih single fun d mem => separates d (List.mem_cons_of_mem c mem)

/-- Two groups with only adjoining characters between them are not separated. -/
theorem not_separated (u v : List Char) (adjoining : ∀ c ∈ between, isAdjoining c = true) :
    ¬ Separated (u ++ ')' :: between ++ '(' :: v) := by
  rintro ⟨behind, run⟩
  rw [List.append_assoc, behindGroup?_append] at run
  obtain ⟨front, -, run⟩ := Option.bind_eq_some_iff.mp run
  rw [List.cons_append, behindGroup?, if_pos rfl, behindGroup?_append,
    behindGroup?_of_adjoining adjoining, Option.bind_some] at run
  simp [behindGroup?] at run

theorem separated_nil : Separated [] :=
  ⟨false, rfl⟩

theorem separated_of_adjoining (adjoining : ∀ c ∈ s, isAdjoining c = true) : Separated s :=
  ⟨false, behindGroup?_of_adjoining adjoining⟩

namespace Separated

theorem behind_adjoining (adjoining : ∀ c ∈ s, isAdjoining c = true)
    (separated : Separated t) : Separated (s ++ t) := by
  obtain ⟨behind, run⟩ := separated
  exact ⟨behind, by rw [behindGroup?_append, behindGroup?_of_adjoining adjoining]; exact run⟩

theorem before_adjoining (separated : Separated s)
    (adjoining : ∀ c ∈ t, isAdjoining c = true) : Separated (s ++ t) := by
  obtain ⟨behind, run⟩ := separated
  exact ⟨behind, by rw [behindGroup?_append, run]; exact behindGroup?_of_adjoining adjoining⟩

/-- Texts with separators between them. -/
theorem around {mid : List Char} (front : Separated s) (back : Separated t) (nonempty : mid ≠ [])
    (separates : ∀ c ∈ mid, isSeparator c = true) : Separated (s ++ mid ++ t) := by
  obtain ⟨first, run⟩ := front
  obtain ⟨behind, later⟩ := back
  refine ⟨behind, ?_⟩
  rw [List.append_assoc, behindGroup?_append, run, Option.bind_some,
    behindGroup?_separators nonempty separates, later]

theorem group (separated : Separated s) : Separated ('(' :: s ++ [')']) := by
  obtain ⟨behind, run⟩ := separated
  refine ⟨true, ?_⟩
  have opened : behindGroup? false ('(' :: s) = some behind := by
    rw [behindGroup?, if_neg (by decide), if_pos rfl]
    exact run
  rw [behindGroup?_append, opened, Option.bind_some, behindGroup?, if_pos rfl, behindGroup?]

/-- Texts with one separator between them. -/
theorem cut {c : Char} (front : Separated s) (separates : isSeparator c = true)
    (back : Separated t) : Separated (s ++ c :: t) := by
  have whole := @around s t [c] front back (by simp) (by simpa using separates)
  rwa [List.append_assoc] at whole

theorem square (separated : Separated s) : Separated ('[' :: s ++ [']']) :=
  (separated_nil.cut rfl separated).cut rfl separated_nil

theorem listed {pieces : List (List Char)} (separated : ∀ piece ∈ pieces, Separated piece) :
    Separated (listed pieces) := by
  cases pieces with
  | nil => exact separated_nil
  | cons first later =>
    rw [SelectionFormula.listed]
    induction later generalizing first with
    | nil =>
      rw [joined_nil]
      exact separated first List.mem_cons_self
    | cons next later ih =>
      have rest := ih next fun p mem => separated p (List.mem_cons_of_mem first mem)
      rw [joined_cons]
      exact (separated first List.mem_cons_self).cut rfl rest

end Separated

section Adjoining

variable {c : Char}

theorem isAdjoining_of_kind {kind : Char → Bool} (holds : kind c = true)
    (brackets : (['(', ')', ',', '[', ']'].all fun d => !kind d) = true)
    (plain : isOperatorChar c = false) : isAdjoining c = true := by
  have never := fun d mem => by simpa using List.all_eq_true.mp brackets d mem
  have other : ∀ d ∈ ['(', ')', ',', '[', ']'], c ≠ d := by
    rintro d mem rfl
    rw [never c mem] at holds
    cases holds
  simp only [List.mem_cons, List.not_mem_nil, or_false, forall_eq_or_imp, forall_eq] at other
  simp [isAdjoining, isSeparator, other, plain]

theorem isAdjoining_of_isWordChar (word : isWordChar c = true) : isAdjoining c = true :=
  isAdjoining_of_kind word (by decide) (isOperatorChar_eq_false_of_isWordChar word)

theorem isAdjoining_of_isBlank (blank : isBlank c = true) : isAdjoining c = true :=
  isAdjoining_of_kind blank (by decide) (contains_eq_false (by decide) blank)

end Adjoining

/-- What the grammar derives has its groups separated: it puts an operator, a comma or a square
bracket between any two texts. -/
theorem separated_of_derives {text : List Char} {e : Expr} (derives : Derives text e) :
    Separated text := by
  induction derives with
  | padded leading trailing _ ih =>
    exact (ih.behind_adjoining fun c mem => isAdjoining_of_isBlank (leading c mem)).before_adjoining
      fun c mem => isAdjoining_of_isBlank (trailing c mem)
  | constant _ words =>
    exact separated_of_adjoining fun c mem => isAdjoining_of_isWordChar (words c mem)
  | argument isName =>
    have words := (wordChars_of_isFunctionName (isFunctionName_of_isArgumentName isName)).2
    exact separated_of_adjoining fun c mem => isAdjoining_of_isWordChar (words c mem)
  | @unary op _ _ op_ne _ ih =>
    refine ih.behind_adjoining ?_
    cases op with
    | negate => exact absurd rfl op_ne
    | complement => simp [UnaryOperator.symbol, isAdjoining, isSeparator, isOperatorChar]
    | not => simp [UnaryOperator.symbol, isAdjoining, isSeparator, isOperatorChar]
  | @binary op _ _ _ _ _ _ _ left right =>
    refine left.around right op.symbol_ne_nil fun c mem => ?_
    rw [isSeparator, isOperatorChar_symbol op c mem, Bool.or_true]
  | conditional _ _ _ condition yes no =>
    exact (condition.cut rfl yes).cut rfl no
  | group _ ih => exact ih.group
  | array _ ih => exact (Separated.listed (by simpa using ih)).square
  | index _ _ items position =>
    exact (items.cut rfl position).cut rfl separated_nil
  | @call name _ items isName _ _ _ ih =>
    have words := (wordChars_of_isFunctionName isName).2
    rw [List.append_assoc]
    exact (Separated.listed (by simpa using ih)).group.behind_adjoining
      fun c mem => isAdjoining_of_isWordChar (words c mem)

end Separated

/-- Two groups with only adjoining characters between them are rejected, whatever they contain. -/
theorem Expr.rejected_of_groups (u v : List Char) {between : List Char}
    (adjoining : ∀ c ∈ between, isAdjoining c = true) :
    ∃ rejection, read (u ++ ')' :: between ++ '(' :: v) = .error (.rejected rejection) :=
  exists_rejection fun _ accepted =>
    not_separated u v adjoining (separated_of_derives (derives_of_read accepted))

/-- Groups and calls are read between partners and nowhere else. A group that is read begins at
the partner of its last parenthesis, and so does a call; where no level applies and the last
parenthesis has another partner the text is rejected; and so is every text in which a parenthesis
is opened behind a closed one with neither an operator nor a comma nor a square bracket between
them. Parentheses around a nested text are partners, and what they enclose is read. -/
theorem groups_between_partners :
    (∀ (text : List Char) (e : Expr), text.head? = some '(' → text.getLast? = some ')' →
      Form.operand (Expr.readWithin text) = .ok e → Partners text 0 (byteLength text - 1)) ∧
    (∀ (text : List Char) (e : Expr), text.head? ≠ some '(' → text.getLast? = some ')' →
      Form.operand (Expr.readWithin text) = .ok e →
      Partners text (firstOpening text) (byteLength text - 1)) ∧
    (∀ (text : List Char) (opening : Nat), Trimmed text →
      (∀ level ∈ Level.table, Expr.Passes text level) → text.getLast? = some ')' →
      Partners text opening (byteLength text - 1) → opening ≠ firstOpening text →
      ∃ rejection, Expr.read text = .error (.rejected rejection)) ∧
    (∀ u between v : List Char, (∀ c ∈ between, isAdjoining c = true) →
      ∃ rejection, Expr.read (u ++ ')' :: between ++ '(' :: v) = .error (.rejected rejection)) ∧
    (∀ inner : List Char, Nested inner →
      Expr.read ('(' :: inner ++ [')']) = Expr.readGroup inner) ∧
    (∀ name arguments : List Char, isFunctionName name = true → Nested arguments →
      Expr.read (name ++ '(' :: arguments ++ [')']) = Expr.readCall name arguments) := by
  refine ⟨?_, ?_, ?_, ?_, ?_, ?_⟩
  · intro text e head last accepted
    exact Expr.partners_of_group head last accepted
  · intro text e head last accepted
    exact Expr.partners_of_call head last accepted
  · intro text opening trimmed passes last partners other
    exact Expr.rejected_of_partners trimmed passes last partners other
  · intro u between v adjoining
    exact Expr.rejected_of_groups u v adjoining
  · intro inner nested
    exact Expr.read_group_eq nested.balanced
  · intro name arguments isName nested
    exact Expr.read_call_eq isName nested.balanced

/-- A group, a call, and two groups side by side: the last parenthesis of `f(a)(b,c)` closes the
second opening one. -/
theorem groups_between_partners_samples :
    Partners "((a)+b)".toList 0 6 ∧ Partners "max(a,(b))".toList 3 9 ∧
      (∃ rejection, Expr.read "f(a)(b,c)".toList = .error (.rejected rejection)) ∧
      ∃ rejection, Expr.read "(a)x(b)".toList = .error (.rejected rejection) := by
  obtain ⟨group, call, unmatched, adjoining, -, -⟩ := groups_between_partners
  refine ⟨?_, ?_, ?_, ?_⟩
  · have sealed : Sealed "((a)+b)".toList :=
      @Expr.sealed_group "(a)+b".toList rfl .round
    refine group _ (.binary .plus (.argument "a") (.argument "b")) rfl rfl ?_
    rw [← Expr.read_of_sealed sealed]
    cbv
  · have sealed : Sealed "max(a,(b))".toList :=
      @Expr.sealed_behind "max".toList "a,(b)".toList (Expr.sealed_of_isFunctionName rfl) rfl .round
    refine call _ (.call .max [.argument "a", .argument "b"]) (by decide) rfl ?_
    rw [← Expr.read_of_sealed sealed]
    cbv
  · have first : Sealed "f(a)".toList :=
      @Expr.sealed_behind ['f'] ['a'] (Expr.sealed_of_isFunctionName rfl) rfl .round
    have sealed : Sealed "f(a)(b,c)".toList :=
      @Expr.sealed_behind "f(a)".toList "b,c".toList first rfl .round
    have last : Partners "f(a)(b,c)".toList 4 8 :=
      @partners_around _ "f(a)".toList "b,c".toList (nested_iff_balanced.mpr rfl) rfl
    exact unmatched _ 4 sealed.trimmed (fun level _ => Expr.passes_of_sealed sealed level) rfl last
      (show 4 ≠ 1 by decide)
  · have words := (@wordChars_of_isFunctionName ['x'] rfl).2
    exact adjoining ['(', 'a'] ['x'] ['b', ')'] fun c mem => isAdjoining_of_isWordChar (words c mem)

end SelectionFormula
