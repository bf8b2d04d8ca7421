import SelectionFormula.Proofs.Text.Trim
import SelectionFormula.Proofs.Reading.Answer
import SelectionFormula.Proofs.Reading.Derivation
import SelectionFormula.Proofs.Reading.Location

/-!
Which texts are accepted.

A level answers when the looser ones do not apply (`read_of_level`), and an operand
is read when none does (`read_of_operand`). A level does not apply when its symbol
does not occur outside brackets (`passes_binary_of_absent`).

* `read_binary` — two accepted texts around the last occurrence of an operator.
* `passes_times_of_power` — the level of `*` does not apply when the last `*` is
  half of a `**`, because no accepted text ends with `*`.
-/

namespace SelectionFormula

open Text

theorem ofChar?_of_isBlank {c : Char} (blank : isBlank c = true) :
    BracketMark.ofChar? c = none := by
  unfold BracketMark.ofChar?
  split <;> first | rfl | exact absurd blank (by decide)

theorem Text.AllBlank.unbracketed {text : List Char} (blank : AllBlank text) :
    Unbracketed text :=
  fun c mem => ofChar?_of_isBlank (blank c mem)

/-- A character of the operators that stand between operands. -/
def isOperatorChar (c : Char) : Bool :=
  ['?', ':', '|', '&', '^', '=', '<', '>', '+', '-', '*', '/', '%'].contains c

theorem nesting_of_isOperatorChar {c : Char} (operator : isOperatorChar c = true) :
    nesting c = 0 := by
  have plain := @eq_false_of_contains _ (fun d => nesting d != 0) c (by decide) operator
  simpa using plain

theorem isBlank_eq_false_of_isOperatorChar {c : Char} (operator : isOperatorChar c = true) :
    isBlank c = false :=
  @eq_false_of_contains _ isBlank c (by decide) operator

theorem isOperatorChar_symbol (op : BinaryOperator) :
    ∀ c ∈ op.symbol.toList, isOperatorChar c = true := by
  cases op <;> simp [BinaryOperator.symbol, isOperatorChar]

namespace Expr

variable {text s t : List Char} {e : Expr}

/-! ### Blanks around a text -/

/-- Blanks around a text have no part in how its brackets nest. -/
theorem balanced_trim_iff : Balanced (trim text) ↔ Balanced text := by
  obtain ⟨trail, trailing, split⟩ := trim_split text
  have leading := (allBlank_takeWhile text).unbracketed
  constructor
  · intro balanced
    rw [split]
    exact (leading.balanced.append balanced).append trailing.unbracketed.balanced
  · intro balanced
    rw [split, List.append_assoc] at balanced
    obtain ⟨-, balanced⟩ := balanced.of_append leading.depth_eq_zero
    refine (balanced.of_append ?_).1
    have := balanced.depth_eq_zero
    rw [depth_append, trailing.unbracketed.depth_eq_zero] at this
    simpa using this

theorem balanced_of_accepted (accepted : read text = .ok e) : Balanced text :=
  balanced_trim_iff.mp (balanced_of_read accepted)

theorem read_eq_ok_iff : read text = .ok e ↔ readTrimmed (readWithin (trim text)) = .ok e := by
  rw [read_eq, mapError_eq_ok_iff]

/-- A text without blanks around it is read as it is. -/
theorem read_trimmed (trimmed : Trimmed text) : read text = readTrimmed (readWithin text) := by
  rw [read_eq, trim_eq_self trimmed, takeWhile_of_head trimmed.head, byteLength_nil,
    mapError_shifted_zero]

/-- Blanks in front of a text that is not blank move what it is rejected for. -/
theorem read_padded {lead trail : List Char} (leading : AllBlank lead) (trailing : AllBlank trail)
    (nonblank : trim text ≠ []) :
    read (lead ++ text ++ trail) = (read text).mapError (·.shifted (byteLength lead)) := by
  rw [read_eq, read_eq text, trim_pad leading trailing, takeWhile_pad leading nonblank,
    mapError_shifted_shifted, byteLength_append, Nat.add_comm]

/-- Texts that differ in the blanks around them have the same tree. -/
theorem read_of_trim_eq (same : trim s = trim t) (accepted : read s = .ok e) :
    read t = .ok e := by
  rw [read_eq_ok_iff] at accepted ⊢
  rwa [same] at accepted

theorem read_pad {lead trail : List Char} (leading : AllBlank lead) (trailing : AllBlank trail)
    (accepted : read text = .ok e) : read (lead ++ text ++ trail) = .ok e :=
  read_of_trim_eq (trim_pad leading trailing text).symm accepted

theorem read_space_before (accepted : read text = .ok e) : read (' ' :: text) = .ok e := by
  simpa using read_pad allBlank_space allBlank_nil accepted

theorem read_space_behind (accepted : read text = .ok e) : read (text ++ [' ']) = .ok e := by
  simpa using read_pad allBlank_nil allBlank_space accepted

theorem read_trimStart (text : List Char) :
    read text =
      (read (trimStart text)).mapError (·.shifted (byteLength (text.takeWhile isBlank))) := by
  have firm := trimStart_head text
  have same : trim (trimStart text) = trim text := by
    rw [trim, trimStart_eq_self firm, trim]
  have none : (trimStart text).takeWhile isBlank = [] := takeWhile_of_head firm
  rw [read_eq, read_eq (trimStart text), same, none, mapError_shifted_shifted, byteLength_nil,
    Nat.zero_add]

theorem read_trimEnd (nonblank : trim text ≠ []) : read (trimEnd text) = read text := by
  obtain ⟨trail, trailing, split⟩ := trimEnd_split text
  have inside : trim (trimEnd text) ≠ [] := by
    rwa [split, trim_append_allBlank trailing] at nonblank
  have padded := read_padded allBlank_nil trailing inside
  rw [List.nil_append, ← split, byteLength_nil, mapError_shifted_zero] at padded
  exact padded.symm

theorem ne_nil_of_accepted (accepted : read text = .ok e) : text ≠ [] := by
  obtain ⟨rest, c, trail, -, -, rfl⟩ := (derives_of_read accepted).closes
  simp

/-! ### The level that answers -/

theorem readTrimmed_of_level {level : Level} {answer : Except Stop Expr} (balanced : Balanced text)
    (nonempty : text ≠ []) (reaches : Reaches text level)
    (answers : level.answer? (readWithin text) = some answer) :
    readTrimmed (readWithin text) = answer := by
  have found := Level.findSome?_table_eq_some_iff.mpr ⟨level, reaches.1, reaches.2, answers⟩
  rw [readTrimmed, (firstFault?_eq_none_iff text).mpr balanced]
  dsimp only
  rw [if_neg nonempty, found]

theorem readTrimmed_of_operand (balanced : Balanced text) (nonempty : text ≠ [])
    (passes : ∀ level ∈ Level.table, Passes text level) :
    readTrimmed (readWithin text) = Form.operand (readWithin text) := by
  rw [readTrimmed, (firstFault?_eq_none_iff text).mpr balanced]
  dsimp only
  rw [if_neg nonempty, List.findSome?_eq_none_iff.mpr passes]

theorem trim_ne_nil_of_accepted (accepted : read text = .ok e) : trim text ≠ [] := by
  intro empty
  rw [read_eq_ok_iff, empty] at accepted
  cases accepted

/-! ### Operators -/

theorem lastOccurrence?_trim {token : List Char} (nonempty : token ≠ [])
    (absent : lastOccurrence? token text = none) : lastOccurrence? token (trim text) = none := by
  obtain ⟨trail, trailing, split⟩ := trim_split text
  rw [split, List.append_assoc] at absent
  have behind := lastOccurrence?_eq_none_of_append_left nonempty absent
  exact lastOccurrence?_eq_none_of_append_right nonempty
    trailing.unbracketed.depth_eq_zero behind

theorem passes_binary_of_absent {op : BinaryOperator}
    (absent : lastOccurrence? op.symbol.toList text = none) : Passes (trim text) (.binary op) :=
  passes_binary (lastOccurrence?_trim op.symbol_ne_nil absent)

theorem passes_conditional_of_absent (question : lastOccurrence? ['?'] text = none)
    (colon : lastOccurrence? [':'] text = none) : Passes (trim text) .conditional :=
  passes_conditional_iff.mpr
    ⟨lastOccurrence?_trim (by simp) question, lastOccurrence?_trim (by simp) colon⟩

theorem trimmed_symbol (op : BinaryOperator) : Trimmed op.symbol.toList := by
  have firm := fun c mem => isBlank_eq_false_of_isOperatorChar (isOperatorChar_symbol op c mem)
  constructor
  · intro c head
    exact firm c (List.mem_of_mem_head? head)
  · intro c last
    exact firm c (List.mem_of_mem_getLast? last)

theorem unbracketed_symbol (op : BinaryOperator) : Unbracketed op.symbol.toList := by
  cases op <;> simp [Unbracketed, BinaryOperator.symbol, BracketMark.ofChar?]

theorem unbracketed_unary (op : UnaryOperator) : Unbracketed op.symbol.toList := by
  cases op <;> simp [Unbracketed, UnaryOperator.symbol, BracketMark.ofChar?]

/-- The blanks in front of the left operand move both operands; those behind the right one
have no part in what is read. -/
theorem readBinary_trim (op : BinaryOperator) (left : List Char) {right : List Char}
    (nonblank : trim right ≠ []) :
    readBinary op left right = (readBinary op (trimStart left) (trimEnd right)).mapError
      (·.shifted (byteLength (left.takeWhile isBlank))) := by
  have bytes : byteLength (left ++ op.symbol.toList) =
      byteLength (trimStart left ++ op.symbol.toList) + byteLength (left.takeWhile isBlank) := by
    conv_lhs => rw [← List.takeWhile_append_dropWhile (p := isBlank) (l := left), ← trimStart]
    simp only [byteLength_append]
    omega
  unfold readBinary
  rw [read_trimStart left, ← read_trimEnd nonblank, bytes, ← mapError_shifted_shifted]
  cases read (trimStart left) with
  | error stop => rfl
  | ok l =>
    cases (read (trimEnd right)).mapError
      (·.shifted (byteLength (trimStart left ++ op.symbol.toList))) <;> rfl

/-- The texts around the last occurrence of an operator are read as its operands. -/
theorem read_binary_eq {op : BinaryOperator} {left right : List Char} (front : Balanced left)
    (behind : Balanced right) (nonblank : trim right ≠ [])
    (last : lastOccurrence? op.symbol.toList (op.symbol.toList.tail ++ right) = none)
    (passes : ∀ level ∈ (Level.binary op).looser,
      Passes (trim (left ++ op.symbol.toList ++ right)) level)
    (kept : Form.givesWay op = false ∨ ∃ e, readBinary op left right = .ok e) :
    read (left ++ op.symbol.toList ++ right) = readBinary op left right := by
  have trimmed := trim_around (trimmed_symbol op) op.symbol_ne_nil left right
  have balanced : Balanced (left ++ op.symbol.toList ++ right) :=
    (front.append (unbracketed_symbol op).balanced).append behind
  obtain ⟨trail, trailing, split⟩ := trimEnd_split right
  have back : depth trail = 0 := trailing.unbracketed.depth_eq_zero
  obtain ⟨c, rest, symbol⟩ := List.exists_cons_of_ne_nil op.symbol_ne_nil
  have blanks : (left ++ op.symbol.toList ++ right).takeWhile isBlank =
      left.takeWhile isBlank := by
    have firm := isBlank_eq_false_of_isOperatorChar (isOperatorChar_symbol op c (by simp [symbol]))
    rw [symbol, List.append_assoc]
    exact takeWhile_append_cons firm left (rest ++ right)
  have found : lastOccurrence? op.symbol.toList
      (trimStart left ++ op.symbol.toList ++ trimEnd right) =
        some (byteLength (trimStart left)) := by
    rw [split, ← List.append_assoc] at last
    have last' := lastOccurrence?_eq_none_of_append_right op.symbol_ne_nil back last
    have closed : depth (op.symbol.toList ++ trimEnd right) = 0 := by
      have whole := behind.depth_eq_zero
      rw [split, depth_append, back] at whole
      rw [depth_append, (unbracketed_symbol op).depth_eq_zero]
      omega
    rw [symbol] at last' closed ⊢
    exact lastOccurrence?_at closed last' (trimStart left)
  have inner : readTrimmed (readWithin (trim (left ++ op.symbol.toList ++ right))) =
      readBinary op (trimStart left) (trimEnd right) := by
    refine @readTrimmed_of_level _ (.binary op) _ (balanced_trim_iff.mpr balanced) ?_
      ⟨by cases op <;> decide, passes⟩ ?_
    · rw [trimmed]
      simp [op.symbol_ne_nil]
    · rw [trimmed]
      change Form.binary? op _ = _
      rw [binary?_eq rfl found]
      split
      · next rejection rejected =>
        rcases kept with firm | ⟨e, accepted⟩
        · simp [firm]
        · rw [readBinary_trim op left nonblank, rejected] at accepted
          cases accepted
      · rfl
  rw [read_eq, blanks, inner, readBinary_trim op left nonblank]

/-- Two accepted texts around the last occurrence of an operator. -/
theorem read_binary {op : BinaryOperator} {left right : List Char} {l r : Expr}
    (hl : read left = .ok l) (hr : read right = .ok r)
    (last : lastOccurrence? op.symbol.toList (op.symbol.toList.tail ++ right) = none)
    (passes : ∀ level ∈ (Level.binary op).looser,
      Passes (trim (left ++ op.symbol.toList ++ right)) level) :
    read (left ++ op.symbol.toList ++ right) = .ok (.binary op l r) := by
  have accepted : readBinary op left right = .ok (.binary op l r) := by
    rw [readBinary, hl, hr]
    rfl
  rw [read_binary_eq (balanced_of_accepted hl) (balanced_of_accepted hr)
    (trim_ne_nil_of_accepted hr) last passes (.inr ⟨_, accepted⟩), accepted]

/-- A text that ends with a character that can end no accepted text is rejected. -/
theorem rejected_of_last {c : Char} (blank : isBlank c = false) (closing : isClosing c = false)
    (s : List Char) : ∃ rejection, read (s ++ [c]) = .error (.rejected rejection) := by
  refine exists_rejection fun e accepted => ?_
  rcases (derives_of_read accepted).closes.last c (by simp) with white | closes
  · exact absurd white (by simp [blank])
  · exact absurd closes (by simp [closing])

/-- The level of `*` does not apply when the last `*` is half of a `**`. -/
theorem passes_times_of_power {left right : List Char}
    (last : lastOccurrence? ['*'] right = none) (closed : depth right = 0) :
    Passes (trim (left ++ ['*', '*'] ++ right)) (.binary .times) := by
  have trimmed := @trim_around ['*', '*'] (trimmed_symbol .power) (by simp) left right
  obtain ⟨trail, trailing, split⟩ := trimEnd_split right
  have back : depth trail = 0 := trailing.unbracketed.depth_eq_zero
  have last' : lastOccurrence? ['*'] (trimEnd right) = none := by
    rw [split] at last
    exact lastOccurrence?_eq_none_of_append_right (by simp) back last
  have closed' : depth (['*'] ++ trimEnd right) = 0 := by
    rw [split, depth_append, back, Int.add_zero] at closed
    rw [depth_append, closed]
    rfl
  have found : lastOccurrence? BinaryOperator.times.symbol.toList
      (trimStart left ++ ['*'] ++ ['*'] ++ trimEnd right) =
        some (byteLength (trimStart left ++ ['*'])) :=
    lastOccurrence?_at closed' last' (trimStart left ++ ['*'])
  obtain ⟨rejection, rejected⟩ := @rejected_of_last '*' (by decide) (by decide) (trimStart left)
  have half : readBinary .times (trimStart left ++ ['*']) (trimEnd right) =
      .error (.rejected rejection) := by
    rw [readBinary, rejected]
    rfl
  have cut : trimStart left ++ ['*', '*'] ++ trimEnd right =
      trimStart left ++ ['*'] ++ BinaryOperator.times.symbol.toList ++ trimEnd right := by
    simp [BinaryOperator.symbol]
  rw [trimmed]
  change Form.binary? .times _ = none
  rw [binary?_eq cut (by rw [cut]; exact found), half]
  rfl

end Expr

end SelectionFormula
