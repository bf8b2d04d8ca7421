import Mathlib.Data.List.TakeWhile
import SelectionFormula.Proofs.Reading.Part

/-!
What reading can do with a text, case by case.

`Answers text answer` lists the ways in which a text without blanks around it is
read: which form applied, how the text splits into its parts, which levels were
passed over before, and what is built from the parts. `answers_of_read` says that
every reading is one of these; what is preserved by reading is proved one
constructor at a time from there.
-/

namespace SelectionFormula

open Text

theorem UnaryOperator.symbol_ne_nil (op : UnaryOperator) : op.symbol.toList ≠ [] := by
  cases op <;> decide

theorem BinaryOperator.symbol_ne_nil (op : BinaryOperator) : op.symbol.toList ≠ [] := by
  cases op <;> decide

/-- The levels in front of one in the table. -/
def Level.looser (level : Level) : List Level :=
  table.takeWhile (· != level)

/-- The first level that answers has none in front that does. -/
theorem Level.findSome?_table_eq_some_iff {α : Type} {f : Level → Option α} {b : α} :
    table.findSome? f = some b ↔
      ∃ level ∈ table, (∀ l ∈ level.looser, f l = none) ∧ f level = some b := by
  constructor
  · intro found
    obtain ⟨before, level, behind, split, here, none⟩ := List.findSome?_eq_some_iff.mp found
    have front : level.looser = before := by
      rw [looser, split, List.takeWhile_append_of_pos, List.takeWhile_cons_of_neg (by simp),
        List.append_nil]
      intro l mem
      rw [bne_iff_ne]
      rintro rfl
      rw [none l mem] at here
      cases here
    exact ⟨level, by simp [split], by rwa [front], here⟩
  · rintro ⟨level, mem, none, here⟩
    have split := List.takeWhile_append_dropWhile (p := (· != level)) (l := table)
    cases rest : table.dropWhile (· != level) with
    | nil => simpa using List.dropWhile_eq_nil_iff.mp rest level mem
    | cons l behind =>
      have := List.head?_dropWhile_not (· != level) table
      rw [rest] at this
      have at_level : l = level := by simpa using this
      rw [rest, at_level] at split
      exact List.findSome?_eq_some_iff.mpr ⟨_, level, behind, split.symm, here, none⟩

namespace Expr

/-! ### The forms, told by their parts -/

def readConditional (condition yes no : List Char) : Except Stop Expr := do
  let c ← read condition
  let y ← (read yes).mapError (·.shifted (byteLength (condition ++ ['?'])))
  let n ← (read no).mapError (·.shifted (byteLength (condition ++ '?' :: yes ++ [':'])))
  return .conditional c y n

def readBinary (op : BinaryOperator) (left right : List Char) : Except Stop Expr := do
  let l ← read left
  let r ← (read right).mapError (·.shifted (byteLength (left ++ op.symbol.toList)))
  return .binary op l r

def readUnary (op : UnaryOperator) (operand : List Char) : Except Stop Expr :=
  ((read operand).mapError (·.shifted (byteLength op.symbol.toList))).map (.unary op)

def readGroup (inner : List Char) : Except Stop Expr :=
  (read inner).mapError (·.shifted 1)

def readIndex (items position : List Char) : Except Stop Expr := do
  let a ← read items
  let p ← (read position).mapError (·.shifted (byteLength (items ++ ['['])))
  return .index a p

def readCall (name arguments : List Char) : Except Stop Expr := do
  let es ← readList (byteLength (name ++ ['('])) arguments
  match MathFunction.ofName? (String.ofList name) with
  | none => reject .unknownFunction 0
  | some function =>
    if function.arity.accepts es.length then return .call function es
    else reject .wrongArgumentCount 0

/-! ### The cases -/

/-- A level does not apply to a text. -/
def Passes (text : List Char) (level : Level) : Prop :=
  level.answer? (readWithin text) = none

/-- The levels in front of one in the table do not apply. -/
def Reaches (text : List Char) (level : Level) : Prop :=
  level ∈ Level.table ∧ ∀ l ∈ level.looser, Passes text l

/-- The readings of a text without blanks around it. -/
inductive Answers (text : List Char) : Except Stop Expr → Prop where
  | unbalanced {offset : Nat} : firstFault? text = some offset →
      Answers text (reject .unbalancedParentheses offset)
  | empty : text = [] → Answers text (reject .emptyInput 0)
  | lopsided : Balanced text → Answers text (reject .unparsableToken 0)
  | conditional {condition yes no : List Char} : Balanced text →
      text = condition ++ '?' :: yes ++ ':' :: no →
      lastOccurrence? ['?'] text = some (byteLength condition) →
      lastOccurrence? [':'] text = some (byteLength (condition ++ '?' :: yes)) →
      Answers text (readConditional condition yes no)
  | binary {op : BinaryOperator} {left right : List Char} : Balanced text →
      Reaches text (.binary op) → text = left ++ op.symbol.toList ++ right →
      lastOccurrence? op.symbol.toList text = some (byteLength left) →
      Answers text (readBinary op left right)
  | unary {op : UnaryOperator} {operand : List Char} : Balanced text →
      Reaches text (.unary op) → text = op.symbol.toList ++ operand →
      Answers text (readUnary op operand)
  | group {inner : List Char} : Balanced text → (∀ level ∈ Level.table, Passes text level) →
      text = '(' :: inner ++ [')'] → Answers text (readGroup inner)
  | unopened : Balanced text → lastOccurrence? ['['] text = none → text.getLast? = some ']' →
      Answers text (reject .unbalancedParentheses (byteLength text - 1))
  | array {list : List Char} : Balanced text → (∀ level ∈ Level.table, Passes text level) →
      text = '[' :: list ++ [']'] → lastOccurrence? ['['] text = some 0 →
      Answers text ((readList 1 list).map .array)
  | index {items position : List Char} : Balanced text →
      (∀ level ∈ Level.table, Passes text level) →
      text = items ++ '[' :: position ++ [']'] → items ≠ [] →
      lastOccurrence? ['['] text = some (byteLength items) →
      Answers text (readIndex items position)
  | call {name arguments : List Char} : Balanced text →
      (∀ level ∈ Level.table, Passes text level) →
      text = name ++ '(' :: arguments ++ [')'] → isFunctionName name = true →
      Answers text (readCall name arguments)
  | unnamed : Balanced text → text.getLast? = some ')' →
      Answers text (reject .invalidFunctionSyntax 0)
  | atom : Balanced text → (∀ level ∈ Level.table, Passes text level) →
      Answers text (Form.atom text)

/-! ### Each form's parts -/

section Forms

variable {text : List Char}

theorem conditional?_eq {condition yes no : List Char}
    (split : text = condition ++ '?' :: yes ++ ':' :: no)
    (question : lastOccurrence? ['?'] text = some (byteLength condition))
    (colon : lastOccurrence? [':'] text = some (byteLength (condition ++ '?' :: yes))) :
    Form.conditional? (readWithin text) = some (readConditional condition yes no) := by
  have lengths : text.length = condition.length + 1 + yes.length + 1 + no.length := by
    rw [split]
    simp only [List.length_append, List.length_cons]
    omega
  have front := @readPart_front text condition ('?' :: yes ++ ':' :: no)
    (by simpa using split) (by omega)
  have middle := @readPart_mid text (condition ++ ['?']) (':' :: no) yes
    (by simpa using split) (by omega)
  have back := @readPart_back text (condition ++ '?' :: yes ++ [':']) no
    (by simpa using split) (by omega)
  have size : Char.utf8Size '?' = 1 ∧ Char.utf8Size ':' = 1 := ⟨rfl, rfl⟩
  have ordered : byteLength condition < byteLength (condition ++ '?' :: yes) := by
    simp only [byteLength_append, byteLength_cons, size.1]
    omega
  simp only [Form.conditional?, question, colon, if_pos ordered, readConditional, front]
  simp only [byteLength_append, byteLength_cons, byteLength_nil, size.1, size.2, Nat.add_zero,
    Nat.add_assoc] at middle back ⊢
  rw [middle, back]

theorem binary?_eq {op : BinaryOperator} {left right : List Char}
    (split : text = left ++ op.symbol.toList ++ right)
    (found : lastOccurrence? op.symbol.toList text = some (byteLength left)) :
    Form.binary? op (readWithin text) =
      match readBinary op left right with
      | .error (.rejected _) =>
        if Form.givesWay op then none else some (readBinary op left right)
      | _ => some (readBinary op left right) := by
  have symbol := List.length_pos_iff.mpr op.symbol_ne_nil
  have lengths : text.length = left.length + op.symbol.toList.length + right.length := by
    rw [split]
    simp only [List.length_append]
  have front := @readPart_front text left (op.symbol.toList ++ right)
    (by simpa using split) (by omega)
  have back := @readPart_back text (left ++ op.symbol.toList) right split (by omega)
  rw [byteLength_append] at back
  have tree : (do
      let l ← Form.readPart (readWithin text) 0 (byteLength left)
      let r ← Form.readPart (readWithin text) (byteLength left + byteLength op.symbol.toList)
        (byteLength text)
      return .binary op l r) = readBinary op left right := by
    simp only [front, back, readBinary, byteLength_append]
  unfold Form.binary?
  rw [found]
  dsimp only
  rcases answer : readBinary op left right with (rejection | _) | _ <;>
    simp only [tree, answer]

theorem unary?_eq {op : UnaryOperator} {operand : List Char}
    (split : text = op.symbol.toList ++ operand) :
    Form.unary? op (readWithin text) = some (readUnary op operand) := by
  have symbol := List.length_pos_iff.mpr op.symbol_ne_nil
  have lengths : text.length = op.symbol.toList.length + operand.length := by
    rw [split, List.length_append]
  have back := @readPart_back text op.symbol.toList operand split (by omega)
  have front : op.symbol.toList.isPrefixOf text = true := by
    rw [List.isPrefixOf_iff_prefix]
    exact ⟨operand, split.symm⟩
  rw [Form.unary?, if_pos front, back, readUnary]

theorem operand_group {inner : List Char} (split : text = '(' :: inner ++ [')']) :
    Form.operand (readWithin text) = readGroup inner := by
  have lengths : text.length = inner.length + 2 := by simp [split]
  have ends : text.head? = some '(' ∧ text.getLast? = some ')' := by
    rw [split, List.getLast?_append]
    exact ⟨rfl, rfl⟩
  have bytes : byteLength text - 1 = byteLength ['('] + byteLength inner := by
    rw [split, byteLength_append]
    exact Nat.add_sub_cancel ..
  have cut := @readPart_mid text ['('] [')'] inner split (by omega)
  rw [Form.operand, if_pos ends, bytes]
  exact cut

theorem byteLength_sub_one {s : List Char} {c : Char} (narrow : c.utf8Size = 1)
    (split : text = s ++ [c]) : byteLength text - 1 = byteLength s := by
  rw [split, byteLength_append, byteLength_cons, narrow]
  exact Nat.add_sub_cancel ..

theorem operand_array {list : List Char} (split : text = '[' :: list ++ [']'])
    (found : lastOccurrence? ['['] text = some 0) :
    Form.operand (readWithin text) = (readList 1 list).map .array := by
  have lengths : text.length = list.length + 2 := by simp [split]
  have last : text.getLast? = some ']' := by
    rw [split, List.getLast?_append]
    rfl
  have bytes : byteLength text - 1 = byteLength ['['] + byteLength list :=
    byteLength_sub_one rfl split
  have items := @readItems_eq text ['['] [']'] list split (by omega)
  rw [Form.operand, if_neg (by simp [last]), if_pos last, Form.bracketed, found]
  rw [bytes]
  exact congrArg (Except.map Expr.array) items

theorem operand_index {items position : List Char}
    (split : text = items ++ '[' :: position ++ [']']) (nonempty : items ≠ [])
    (found : lastOccurrence? ['['] text = some (byteLength items)) :
    Form.operand (readWithin text) = readIndex items position := by
  have lengths : text.length = items.length + position.length + 2 := by
    rw [split]
    simp only [List.length_append, List.length_cons, List.length_nil]
    omega
  have last : text.getLast? = some ']' := by
    rw [split, List.getLast?_append]
    rfl
  have size : Char.utf8Size '[' = 1 := rfl
  have bytes : byteLength text - 1 = byteLength (items ++ ['[']) + byteLength position := by
    rw [byteLength_sub_one rfl split]
    simp only [byteLength_append, byteLength_cons, byteLength_nil]
    omega
  obtain ⟨opening, at_opening⟩ : ∃ n, byteLength items = n + 1 := by
    obtain ⟨c, rest, rfl⟩ := List.exists_cons_of_ne_nil nonempty
    have := utf8Size_pos c
    exact ⟨c.utf8Size + byteLength rest - 1, by rw [byteLength_cons]; omega⟩
  have front := @readPart_front text items ('[' :: position ++ [']'])
    (by simpa using split) (by omega)
  have middle := @readPart_mid text (items ++ ['[']) [']'] position
    (by simpa using split) (by omega)
  rw [← bytes] at middle
  have forms : Form.bracketed (readWithin text) = do
      let a ← Form.readPart (readWithin text) 0 (byteLength items)
      let p ← Form.readPart (readWithin text) (byteLength items + 1) (byteLength text - 1)
      return .index a p := by
    rw [Form.bracketed, found, at_opening]
    rfl
  rw [Form.operand, if_neg (by simp [last]), if_pos last, forms, front, readIndex]
  simp only [byteLength_append, byteLength_cons, byteLength_nil, size, Nat.add_zero] at middle ⊢
  rw [middle]

theorem isNameChar_ne_opener {c : Char} (name : isNameChar c = true) : c ≠ '(' := by
  rintro rfl
  exact absurd name (by decide)

theorem operand_call {name arguments : List Char}
    (split : text = name ++ '(' :: arguments ++ [')']) (isName : isFunctionName name = true) :
    Form.operand (readWithin text) = readCall name arguments := by
  have chars : name ≠ [] ∧ ∀ c ∈ name, isNameChar c = true := by
    simpa [isFunctionName] using isName
  have lengths : text.length = name.length + arguments.length + 2 := by
    rw [split]
    simp only [List.length_append, List.length_cons, List.length_nil]
    omega
  have last : text.getLast? = some ')' := by
    rw [split, List.getLast?_append]
    rfl
  have head : text.head? ≠ some '(' := by
    obtain ⟨c, rest, rfl⟩ := List.exists_cons_of_ne_nil chars.1
    rw [split]
    intro opens
    exact isNameChar_ne_opener (chars.2 c List.mem_cons_self) (Option.some.inj opens)
  have before : text.takeWhile (· != '(') = name := by
    rw [split, List.append_assoc, List.takeWhile_append_of_pos]
    · rw [List.cons_append, List.takeWhile_cons_of_neg (by simp), List.append_nil]
    · intro c mem
      simpa using isNameChar_ne_opener (chars.2 c mem)
  have opens : text.contains '(' = true := by simp [split]
  have size : Char.utf8Size '(' = 1 := rfl
  have bytes : byteLength text - 1 = byteLength (name ++ ['(']) + byteLength arguments := by
    rw [byteLength_sub_one rfl split]
    simp only [byteLength_append, byteLength_cons, byteLength_nil]
    omega
  have items := @readItems_eq text (name ++ ['(']) [')'] arguments
    (by simpa using split) (by omega)
  rw [← bytes] at items
  rw [Form.operand, if_neg (fun both => head both.1), if_neg (by simp [last]), if_pos last,
    Form.call]
  rw [before, if_pos (by rw [opens, isName]; rfl), readCall]
  simp only [byteLength_append, byteLength_cons, byteLength_nil, size, Nat.add_zero] at items ⊢
  exact congrArg (· >>= _) items

end Forms

/-! ### When a level does not apply -/

section Passing

variable {text : List Char}

theorem passes_conditional_iff :
    Passes text .conditional ↔
      lastOccurrence? ['?'] text = none ∧ lastOccurrence? [':'] text = none := by
  change Form.conditional? (readWithin text) = none ↔ _
  unfold Form.conditional?
  constructor
  · intro passes
    split at passes
    · next question colon => exact ⟨question, colon⟩
    · split at passes <;> cases passes
    · cases passes
  · rintro ⟨question, colon⟩
    rw [question, colon]

theorem passes_binary {op : BinaryOperator}
    (absent : lastOccurrence? op.symbol.toList text = none) : Passes text (.binary op) := by
  change Form.binary? op (readWithin text) = none
  rw [Form.binary?, absent]

/-- An operator that does not give way is passed over only where it does not occur. -/
theorem lastOccurrence?_eq_none_of_passes {op : BinaryOperator} (firm : Form.givesWay op = false)
    (passes : Passes text (.binary op)) : lastOccurrence? op.symbol.toList text = none := by
  cases found : lastOccurrence? op.symbol.toList text with
  | none => rfl
  | some offset =>
    obtain ⟨left, right, split, rfl, -⟩ :=
      exists_of_lastOccurrence?_eq_some op.symbol_ne_nil found
    change Form.binary? op (readWithin text) = none at passes
    rw [binary?_eq split found, firm] at passes
    split at passes <;> cases passes

theorem passes_unary_iff {op : UnaryOperator} :
    Passes text (.unary op) ↔ ¬ op.symbol.toList <+: text := by
  change Form.unary? op (readWithin text) = none ↔ _
  simp [Form.unary?, List.isPrefixOf_iff_prefix]

end Passing

/-! ### Every reading is one of the cases -/

section Cases

variable {text : List Char}

/-- The two marks of a condition, in order, split a text in three. -/
theorem exists_conditional_split {question colon : Nat}
    (question_eq : lastOccurrence? ['?'] text = some question)
    (colon_eq : lastOccurrence? [':'] text = some colon) (ordered : question < colon) :
    ∃ condition yes no, text = condition ++ '?' :: yes ++ ':' :: no ∧
      question = byteLength condition ∧ colon = byteLength (condition ++ '?' :: yes) := by
  obtain ⟨s, t, here, rfl, -⟩ := exists_of_lastOccurrence?_eq_some (by simp) question_eq
  obtain ⟨u, v, there, rfl, -⟩ := exists_of_lastOccurrence?_eq_some (by simp) colon_eq
  obtain ⟨mid, rfl, rfl⟩ := @split_between text s t u v '?' ':' (by simpa using here)
    (by simpa using there) ordered
  exact ⟨s, mid, v, by simpa using there, rfl, rfl⟩

theorem answers_conditional {answer : Except Stop Expr} (balanced : Balanced text)
    (applies : Form.conditional? (readWithin text) = some answer) : Answers text answer := by
  cases question : lastOccurrence? ['?'] text with
  | none =>
    cases colon : lastOccurrence? [':'] text with
    | none => simp [Form.conditional?, question, colon] at applies
    | some _ =>
      simp only [Form.conditional?, question, colon, Option.some.injEq] at applies
      exact applies ▸ .lopsided balanced
  | some q =>
    cases colon : lastOccurrence? [':'] text with
    | none =>
      simp only [Form.conditional?, question, colon, Option.some.injEq] at applies
      exact applies ▸ .lopsided balanced
    | some k =>
      by_cases ordered : q < k
      · obtain ⟨condition, yes, no, split, rfl, rfl⟩ :=
          exists_conditional_split question colon ordered
        rw [conditional?_eq split question colon] at applies
        cases applies
        exact .conditional balanced split question colon
      · simp only [Form.conditional?, question, colon, if_neg ordered,
          Option.some.injEq] at applies
        exact applies ▸ .lopsided balanced

theorem answers_binary {op : BinaryOperator} {answer : Except Stop Expr}
    (balanced : Balanced text) (reaches : Reaches text (.binary op))
    (applies : Form.binary? op (readWithin text) = some answer) : Answers text answer := by
  cases found : lastOccurrence? op.symbol.toList text with
  | none => simp [Form.binary?, found] at applies
  | some offset =>
    obtain ⟨left, right, split, rfl, -⟩ :=
      exists_of_lastOccurrence?_eq_some op.symbol_ne_nil found
    have answer_eq : answer = readBinary op left right := by
      rw [binary?_eq split found] at applies
      split at applies
      · split at applies
        · cases applies
        · exact (Option.some.inj applies).symm
      · exact (Option.some.inj applies).symm
    exact answer_eq ▸ .binary balanced reaches split found

theorem answers_unary {op : UnaryOperator} {answer : Except Stop Expr}
    (balanced : Balanced text) (reaches : Reaches text (.unary op))
    (applies : Form.unary? op (readWithin text) = some answer) : Answers text answer := by
  by_cases front : op.symbol.toList <+: text
  · obtain ⟨operand, split⟩ := front
    rw [unary?_eq split.symm] at applies
    cases applies
    exact .unary balanced reaches split.symm
  · rw [Form.unary?, if_neg (by rwa [List.isPrefixOf_iff_prefix])] at applies
    cases applies

/-- What is between a character and another one at the end. -/
theorem exists_inner {s back : List Char} {c d : Char} (split : text = s ++ c :: back)
    (last : text.getLast? = some d) (other : c ≠ d) : ∃ mid, back = mid ++ [d] := by
  apply List.getLast?_eq_some_iff.mp
  cases back with
  | nil => simp [split, other] at last
  | cons e back => simpa [split, List.getLast?_append] using last

/-- The last square bracket that is opened, in a text that ends with one that closes. -/
theorem exists_bracketed_split {opening : Nat} (last : text.getLast? = some ']')
    (found : lastOccurrence? ['['] text = some opening) :
    ∃ items position, text = items ++ '[' :: position ++ [']'] ∧ opening = byteLength items := by
  obtain ⟨items, back, split, rfl, -⟩ := exists_of_lastOccurrence?_eq_some (by simp) found
  have opened : text = items ++ '[' :: back := by simpa using split
  obtain ⟨position, rfl⟩ := exists_inner opened last (by decide)
  exact ⟨items, position, by simpa using opened, rfl⟩

theorem answers_bracketed (balanced : Balanced text)
    (passes : ∀ level ∈ Level.table, Passes text level) (last : text.getLast? = some ']') :
    Answers text (Form.operand (readWithin text)) := by
  cases found : lastOccurrence? ['['] text with
  | none =>
    rw [Form.operand, if_neg (by simp [last]), if_pos last, Form.bracketed, found]
    exact .unopened balanced found last
  | some opening =>
    obtain ⟨items, position, split, rfl⟩ := exists_bracketed_split last found
    cases items with
    | nil =>
      rw [operand_array split found]
      exact .array balanced passes split found
    | cons c items =>
      rw [operand_index split (by simp) found]
      exact .index balanced passes split (by simp) found

/-- The first opening parenthesis of a text that has one and ends with a closing one. -/
theorem exists_call_split (opens : text.contains '(' = true) (last : text.getLast? = some ')') :
    ∃ arguments, text = text.takeWhile (· != '(') ++ '(' :: arguments ++ [')'] := by
  have parts := List.takeWhile_append_dropWhile (p := (· != '(')) (l := text)
  cases rest : text.dropWhile (· != '(') with
  | nil =>
    have : '(' ∈ text := by simpa using opens
    have := List.dropWhile_eq_nil_iff.mp rest '(' this
    simp at this
  | cons c back =>
    have := List.head?_dropWhile_not (· != '(') text
    rw [rest] at this
    have opener : c = '(' := by simpa using this
    rw [rest, opener] at parts
    obtain ⟨arguments, rfl⟩ := exists_inner parts.symm last (by decide)
    exact ⟨arguments, by simpa using parts.symm⟩

theorem answers_call (balanced : Balanced text)
    (passes : ∀ level ∈ Level.table, Passes text level) (last : text.getLast? = some ')')
    (head : text.head? ≠ some '(') : Answers text (Form.operand (readWithin text)) := by
  by_cases applies :
      (text.contains '(' && isFunctionName (text.takeWhile (· != '('))) = true
  · obtain ⟨opens, isName⟩ := Bool.and_eq_true_iff.mp applies
    obtain ⟨arguments, split⟩ := exists_call_split opens last
    rw [operand_call split isName]
    exact .call balanced passes split isName
  · rw [Form.operand, if_neg (fun both => head both.1), if_neg (by simp [last]), if_pos last,
      Form.call]
    rw [if_neg applies]
    exact .unnamed balanced last

theorem answers_operand (balanced : Balanced text) (nonempty : text ≠ [])
    (passes : ∀ level ∈ Level.table, Passes text level) :
    Answers text (Form.operand (readWithin text)) := by
  by_cases square : text.getLast? = some ']'
  · exact answers_bracketed balanced passes square
  by_cases round : text.getLast? = some ')'
  · by_cases head : text.head? = some '('
    · obtain ⟨c, back, rfl⟩ := List.exists_cons_of_ne_nil nonempty
      cases Option.some.inj head
      obtain ⟨inner, rfl⟩ := @exists_inner _ [] back _ _ rfl round (by decide)
      rw [operand_group (show '(' :: (inner ++ [')']) = '(' :: inner ++ [')'] from rfl)]
      exact .group balanced passes rfl
    · exact answers_call balanced passes round head
  · rw [Form.operand, if_neg (fun both => round both.2), if_neg square, if_neg round]
    exact .atom balanced passes

theorem answers_readTrimmed (text : List Char) :
    Answers text (readTrimmed (readWithin text)) := by
  unfold readTrimmed
  cases fault : firstFault? text with
  | some offset => exact .unbalanced fault
  | none =>
    have balanced := (firstFault?_eq_none_iff text).mp fault
    dsimp only
    by_cases empty : text = []
    · rw [if_pos empty]
      exact .empty empty
    rw [if_neg empty]
    cases applies : Level.table.findSome? (Level.answer? (readWithin text)) with
    | none => exact answers_operand balanced empty (List.findSome?_eq_none_iff.mp applies)
    | some answer =>
      obtain ⟨level, mem, before, here⟩ := Level.findSome?_table_eq_some_iff.mp applies
      have reaches : Reaches text level := ⟨mem, before⟩
      cases level with
      | conditional => exact answers_conditional balanced here
      | binary op => exact answers_binary balanced reaches here
      | unary op => exact answers_unary balanced reaches here

/-- Every reading is one of the cases, on the text without the blanks around it. -/
theorem answers_of_read (text : List Char) :
    ∃ answer, Answers (trim text) answer ∧
      read text = answer.mapError (·.shifted (byteLength (text.takeWhile isBlank))) :=
  ⟨_, answers_readTrimmed _, read_eq text⟩

end Cases

end Expr

end SelectionFormula
