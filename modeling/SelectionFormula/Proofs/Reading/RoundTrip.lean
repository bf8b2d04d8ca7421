import SelectionFormula.Expr.Written
import SelectionFormula.Proofs.Decimal.ReadBack
import SelectionFormula.Proofs.Reading.Chain
import SelectionFormula.Proofs.Reading.Operand

/-!
A tree's text reads back as the tree.

Every operation of a tree is written in parentheses, so a printed tree has only the
characters of words outside its brackets, and what stands inside a pair of them is
one operator between printed trees. By induction on the tree its text is read as
the tree again (`read_written`), when its numbers are written without an exponent and
its names, operators and argument counts are ones that a formula can have.
-/

namespace SelectionFormula

open Text Binary64

namespace Expr

mutual

/-- Whether a tree consists of what a formula can say. -/
def isPrintable : Expr → Bool
  | constant value => value.isPlain
  | argument name => isArgumentName name.toList
  | unary op operand => op != .negate && operand.isPrintable
  | binary op left right => !op.isShift && left.isPrintable && right.isPrintable
  | conditional condition yes no =>
    condition.isPrintable && yes.isPrintable && no.isPrintable
  | array elements => allPrintable elements
  | index items position => items.isPrintable && position.isPrintable
  | call function arguments =>
    function.arity.accepts arguments.length && allPrintable arguments

/-- Whether several trees consist of what a formula can say. -/
def allPrintable : List Expr → Bool
  | [] => true
  | e :: es => e.isPrintable && allPrintable es

end

/-! ### Printed lists -/

/-- The items of a printed list, the ones behind the first with a blank in front. -/
def printedItems : List Expr → List (List Char × Expr)
  | [] => []
  | e :: es => (e.chars, e) :: es.map fun e => (' ' :: e.chars, e)

theorem printedItems_trees (es : List Expr) : (printedItems es).map (·.2) = es := by
  cases es with
  | nil => rfl
  | cons e es =>
    rw [printedItems, List.map_cons, List.map_map]
    exact congrArg (e :: ·) (List.map_id es)

theorem furtherChars_eq (es : List Expr) :
    furtherChars es = (es.map fun e => ' ' :: e.chars).flatMap (',' :: ·) := by
  induction es with
  | nil => rw [furtherChars]; rfl
  | cons e es ih => simp [furtherChars, ih]

theorem itemChars_eq_listed (es : List Expr) :
    itemChars es = listed ((printedItems es).map (·.1)) := by
  cases es with
  | nil => rw [itemChars]; rfl
  | cons e es =>
    rw [itemChars, furtherChars_eq, printedItems, List.map_cons, listed, joined, List.map_map]
    rfl

/-- A tree whose text is sealed and reads back. -/
def ReadsBack (e : Expr) : Prop :=
  Sealed e.chars ∧ read e.chars = .ok e

theorem printedItems_accepted {es : List Expr} (back : ∀ e ∈ es, e.ReadsBack) :
    ∀ item ∈ printedItems es, read item.1 = .ok item.2 ∧ ',' ∉ outside item.1 := by
  have comma : isWordChar ',' = false := by decide
  cases es with
  | nil => simp [printedItems]
  | cons e es =>
    intro item mem
    rcases List.mem_cons.mp mem with rfl | mem
    · obtain ⟨sealed, accepted⟩ := back e List.mem_cons_self
      exact ⟨accepted, sealed.not_mem_outside comma⟩
    · obtain ⟨e', inside, rfl⟩ := List.mem_map.mp mem
      obtain ⟨sealed, accepted⟩ := back e' (List.mem_cons_of_mem e inside)
      refine ⟨read_space_before accepted, ?_⟩
      rw [outside_cons rfl]
      simp [sealed.not_mem_outside comma]

/-! ### Operators between printed trees -/

/-- A printed tree as an operand, with the blank behind it. -/
def atomBefore {text : List Char} {e : Expr} (sealed : Sealed text) (accepted : read text = .ok e) :
    Atom where
  chars := text ++ [' ']
  tree := e
  accepted := read_space_behind accepted
  plain := by
    intro c outer
    rw [outside_append sealed.balanced.depth_eq_zero] at outer
    rcases List.mem_append.mp outer with outer | blank
    · exact isOperatorChar_eq_false_of_isWordChar (sealed.words c outer)
    · cases List.mem_singleton.mp blank
      decide

/-- A printed tree as an operand, with the blank in front of it. -/
def atomBehind {text : List Char} {e : Expr} (sealed : Sealed text) (accepted : read text = .ok e) :
    Atom where
  chars := ' ' :: text
  tree := e
  accepted := read_space_before accepted
  plain := by
    intro c outer
    rw [outside_cons rfl] at outer
    rcases List.mem_cons.mp outer with rfl | outer
    · decide
    · exact isOperatorChar_eq_false_of_isWordChar (sealed.words c outer)

/-- Two printed trees with an operator between them. -/
theorem read_spaced {op : BinaryOperator} (firm : op.isShift = false) {left right : List Char}
    {l r : Expr} (sealed : Sealed left) (sealed' : Sealed right) (hl : read left = .ok l)
    (hr : read right = .ok r) :
    read (left ++ ' ' :: op.symbol.toList ++ ' ' :: right) = .ok (.binary op l r) := by
  have chain := read_linkChars (atomBefore sealed hl) [⟨op, firm, atomBehind sealed' hr⟩]
  rw [chainTree_singleton] at chain
  simpa [linkChars, atomBefore, atomBehind] using chain

/-! ### The tree -/

theorem readsBack_constant {value : Binary64} (plain : value.isPlain = true) :
    (constant value).ReadsBack := by
  obtain ⟨accepted, words⟩ := number?_chars_of_isPlain plain
  have nonempty : value.chars ≠ [] := by
    intro empty
    rw [empty] at accepted
    exact nomatch number?_nil.symm.trans accepted
  rw [ReadsBack, chars]
  exact ⟨sealed_of_wordChars nonempty words, read_constant accepted words⟩

theorem readsBack_argument {name : String} (isName : isArgumentName name.toList = true) :
    (argument name).ReadsBack := by
  have accepted := read_argument isName
  rw [String.ofList_toList] at accepted
  rw [ReadsBack, chars]
  exact ⟨sealed_of_isFunctionName (isFunctionName_of_isArgumentName isName), accepted⟩

/-- What is printed in parentheses reads back when what is inside does. -/
theorem readsBack_of_group {e : Expr} {inner : List Char} (text : e.chars = '(' :: inner ++ [')'])
    (accepted : read inner = .ok e) : e.ReadsBack := by
  rw [ReadsBack, text]
  exact ⟨sealed_group (balanced_of_accepted accepted) .round, read_group accepted⟩

section Lists

variable {es : List Expr} (back : ∀ e ∈ es, e.ReadsBack)

include back

theorem balanced_itemChars : Balanced (itemChars es) := by
  rw [itemChars_eq_listed]
  exact balanced_of_items fun item mem => (printedItems_accepted back item mem).1

theorem readsBack_array : (array es).ReadsBack := by
  have items := printedItems_accepted back
  have accepted := read_array (fun item mem => (items item mem).1)
    fun item mem => (items item mem).2
  rw [printedItems_trees, ← itemChars_eq_listed] at accepted
  rw [ReadsBack, chars]
  exact ⟨sealed_group (balanced_itemChars back) .square, accepted⟩

theorem readsBack_call {function : MathFunction}
    (fits : function.arity.accepts es.length = true) : (call function es).ReadsBack := by
  have isName := isFunctionName_of_isArgumentName function.isArgumentName_name
  have known : MathFunction.ofName? (String.ofList function.name.toList) = some function := by
    rw [String.ofList_toList, MathFunction.ofName?_name]
  have count : (printedItems es).length = es.length := by
    rw [← List.length_map (·.2), printedItems_trees]
  have items := printedItems_accepted back
  have accepted := read_call isName known (by rwa [count]) (fun item mem => (items item mem).1)
    fun item mem => (items item mem).2
  rw [printedItems_trees, ← itemChars_eq_listed] at accepted
  rw [ReadsBack, chars]
  exact ⟨sealed_behind (sealed_of_isFunctionName isName) (balanced_itemChars back) .round,
    accepted⟩

end Lists

mutual

theorem readsBack_of_isPrintable : ∀ e : Expr, e.isPrintable = true → e.ReadsBack
  | constant value, printable => by
    rw [isPrintable] at printable
    exact readsBack_constant printable
  | argument name, printable => by
    rw [isPrintable] at printable
    exact readsBack_argument printable
  | unary op operand, printable => by
    rw [isPrintable, Bool.and_eq_true, bne_iff_ne] at printable
    obtain ⟨sealed, accepted⟩ := readsBack_of_isPrintable operand printable.2
    refine readsBack_of_group ?_ (read_unary printable.1 sealed accepted)
    rw [chars]
    rfl
  | binary op left right, printable => by
    rw [isPrintable, Bool.and_eq_true, Bool.and_eq_true, Bool.not_eq_true'] at printable
    obtain ⟨⟨firm, hl⟩, hr⟩ := printable
    obtain ⟨sealed, hl⟩ := readsBack_of_isPrintable left hl
    obtain ⟨sealed', hr⟩ := readsBack_of_isPrintable right hr
    refine readsBack_of_group ?_ (read_spaced firm sealed sealed' hl hr)
    rw [chars]
    simp
  | conditional condition yes no, printable => by
    rw [isPrintable, Bool.and_eq_true, Bool.and_eq_true] at printable
    obtain ⟨⟨hc, hy⟩, hn⟩ := printable
    obtain ⟨sealed, hc⟩ := readsBack_of_isPrintable condition hc
    obtain ⟨sealed', hy⟩ := readsBack_of_isPrintable yes hy
    obtain ⟨sealed'', hn⟩ := readsBack_of_isPrintable no hn
    refine readsBack_of_group ?_ (read_conditional sealed sealed' sealed'' hc hy hn)
    rw [chars]
    simp
  | array elements, printable => by
    rw [isPrintable] at printable
    exact readsBack_array (readsBack_of_allPrintable elements printable)
  | index items position, printable => by
    rw [isPrintable, Bool.and_eq_true] at printable
    obtain ⟨sealed, ha⟩ := readsBack_of_isPrintable items printable.1
    obtain ⟨-, hp⟩ := readsBack_of_isPrintable position printable.2
    rw [ReadsBack, chars]
    exact ⟨sealed_behind sealed (balanced_of_accepted hp) .square, read_index sealed ha hp⟩
  | call function arguments, printable => by
    rw [isPrintable, Bool.and_eq_true] at printable
    exact readsBack_call (readsBack_of_allPrintable arguments printable.2) printable.1

theorem readsBack_of_allPrintable : ∀ es : List Expr, allPrintable es = true →
    ∀ e ∈ es, e.ReadsBack
  | [], _ => by simp
  | e :: es, printable => by
    rw [allPrintable, Bool.and_eq_true] at printable
    have first := readsBack_of_isPrintable e printable.1
    have further := readsBack_of_allPrintable es printable.2
    exact List.forall_mem_cons.mpr ⟨first, further⟩

end

/-- The text of a printable tree is read as that tree. -/
theorem read_written (e : Expr) (printable : e.isPrintable = true) :
    read e.written.toList = .ok e := by
  rw [written, String.toList_ofList]
  exact (readsBack_of_isPrintable e printable).2

theorem canonical_tenth : Canonical 7205759403792794 (-56) :=
  ⟨by decide, by decide, by decide, .inl (by decide)⟩

theorem isPlain_tenth :
    (Binary64.finite false 7205759403792794 (-56) canonical_tenth).isPlain = true := by
  rw [isPlain, nearestDecimal_micro, nearestDecimal_sextillion]
  decide +kernel

/-- `((!x) ? [0.1, i][0] : (hypot() ** _y))`. -/
def nestedForms : Expr :=
  conditional (unary .not (argument "x"))
    (index (array [constant (.finite false 7205759403792794 (-56) canonical_tenth), argument "i"])
      (constant (.zero false)))
    (binary .power (call .hypot []) (argument "_y"))

theorem read_written_nestedForms :
    nestedForms.isPrintable = true ∧ read nestedForms.written.toList = .ok nestedForms := by
  have printable : nestedForms.isPrintable = true := by
    simp only [nestedForms, isPrintable, allPrintable, isPlain_tenth]
    decide
  exact ⟨printable, read_written nestedForms printable⟩

end Expr

end SelectionFormula
