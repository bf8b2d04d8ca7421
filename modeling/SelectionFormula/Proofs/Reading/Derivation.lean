import Mathlib.Data.List.Basic
import SelectionFormula.Proofs.Decimal.Literal
import SelectionFormula.Proofs.Text.Trim
import SelectionFormula.Proofs.Reading.Answer

/-!
Which texts can have which tree, without regard to precedence.

`Derives text e` is the loose grammar of the formula language: how a tree's text is
put together from its parts' texts. Precedence is left out, so a text may derive
several trees; reading picks one of them (`derives_of_read`). What holds of every
derivation, such as how its text begins and ends (`Derives.opens`, `Derives.closes`), therefore
holds of every accepted text.
-/

namespace SelectionFormula

open Text

/-- The operators whose level never answers: a looser level finds them first. -/
def BinaryOperator.isShift : BinaryOperator → Bool
  | shiftLeft | shiftRight | shiftRightUnsigned => true
  | _ => false

/-- Items with a comma between two of them. -/
def listed : List (List Char) → List Char
  | [] => []
  | first :: later => joined ',' first later

/-- The loose grammar. A list is given as its items, text and tree of each. -/
inductive Derives : List Char → Expr → Prop where
  | padded {lead text trail : List Char} {e : Expr} : AllBlank lead → AllBlank trail →
      Derives text e → Derives (lead ++ text ++ trail) e
  | constant {text : List Char} {value : Binary64} : Literal.number? text = some value →
      (∀ c ∈ text, isWordChar c = true) → Derives text (.constant value)
  | argument {text : List Char} : isArgumentName text = true →
      Derives text (.argument (String.ofList text))
  | unary {op : UnaryOperator} {text : List Char} {e : Expr} : op ≠ .negate → Derives text e →
      Derives (op.symbol.toList ++ text) (.unary op e)
  | binary {op : BinaryOperator} {left right : List Char} {l r : Expr} : op.isShift = false →
      Derives left l → Derives right r →
      Derives (left ++ op.symbol.toList ++ right) (.binary op l r)
  | conditional {condition yes no : List Char} {c y n : Expr} : Derives condition c →
      Derives yes y → Derives no n →
      Derives (condition ++ '?' :: yes ++ ':' :: no) (.conditional c y n)
  | group {text : List Char} {e : Expr} : Derives text e → Derives ('(' :: text ++ [')']) e
  | array {items : List (List Char × Expr)} : (∀ item ∈ items, Derives item.1 item.2) →
      Derives ('[' :: listed (items.map (·.1)) ++ [']']) (.array (items.map (·.2)))
  | index {items position : List Char} {a p : Expr} : Derives items a → Derives position p →
      Derives (items ++ '[' :: position ++ [']']) (.index a p)
  | call {name : List Char} {function : MathFunction} {items : List (List Char × Expr)} :
      isFunctionName name = true → MathFunction.ofName? (String.ofList name) = some function →
      function.arity.accepts items.length = true → (∀ item ∈ items, Derives item.1 item.2) →
      Derives (name ++ '(' :: listed (items.map (·.1)) ++ [')'])
        (.call function (items.map (·.2)))

section Tables

variable {table : List Char} {kind : Char → Bool} {c : Char}
  (never : (table.all fun d => !kind d) = true)

include never

/-- A character of a table is not of a kind that none of the table's characters is of. -/
theorem eq_false_of_contains (listed : table.contains c = true) : kind c = false := by
  simpa using List.all_eq_true.mp never c (List.contains_iff_mem.mp listed)

theorem contains_eq_false (holds : kind c = true) : table.contains c = false := by
  by_contra listed
  rw [eq_false_of_contains never (Bool.of_not_eq_false listed)] at holds
  cases holds

end Tables

namespace Expr

/-! ### Lists -/

/-- Texts that are read one after the other, each with its tree. -/
theorem items_of_readEach {start : Nat} {pieces : List (List Char)} {es : List Expr}
    (accepted : readEach start pieces = .ok es) :
    ∃ items : List (List Char × Expr), pieces = items.map (·.1) ∧ es = items.map (·.2) ∧
      ∀ item ∈ items, read item.1 = .ok item.2 := by
  induction pieces generalizing start es with
  | nil =>
    cases accepted
    exact ⟨[], rfl, rfl, by simp⟩
  | cons piece later ih =>
    obtain ⟨e, first, accepted⟩ := bind_eq_ok_iff.mp accepted
    obtain ⟨rest, others, accepted⟩ := bind_eq_ok_iff.mp accepted
    cases accepted
    obtain ⟨items, rfl, rfl, all⟩ := ih others
    refine ⟨(piece, e) :: items, rfl, rfl, ?_⟩
    intro item mem
    rcases List.mem_cons.mp mem with rfl | mem
    · exact mapError_eq_ok_iff.mp first
    · exact all item mem

theorem items_of_readList {start : Nat} {list : List Char} {es : List Expr}
    (accepted : readList start list = .ok es) :
    ∃ items : List (List Char × Expr), list = listed (items.map (·.1)) ∧
      es = items.map (·.2) ∧ ∀ item ∈ items, read item.1 = .ok item.2 := by
  unfold readList at accepted
  split at accepted
  · next empty =>
    cases accepted
    exact ⟨[], empty, rfl, by simp⟩
  · obtain ⟨items, pieces_eq, es_eq, all⟩ := items_of_readEach accepted
    refine ⟨items, ?_, es_eq, all⟩
    rw [← pieces_eq, pieces, listed, piecesFrom_joined]

theorem length_le_listed {piece : List Char} {pieces : List (List Char)} (mem : piece ∈ pieces) :
    piece.length ≤ (listed pieces).length := by
  have later : ∀ (first : List Char) (pieces : List (List Char)), piece ∈ first :: pieces →
      piece.length ≤ (joined ',' first pieces).length := by
    intro first pieces mem
    induction pieces generalizing first with
    | nil =>
      cases List.mem_singleton.mp mem
      simp
    | cons next pieces ih =>
      rw [joined_cons, List.length_append, List.length_cons]
      rcases List.mem_cons.mp mem with rfl | mem
      · omega
      · have := ih next mem
        omega
  cases pieces with
  | nil => cases mem
  | cons first pieces => exact later first pieces mem

/-! ### Reading derives -/

variable {text : List Char}

/-- The shift levels never answer: their symbols begin with that of a looser level. -/
theorem isShift_eq_false_of_reaches {op : BinaryOperator} (reaches : Reaches text (.binary op))
    {offset : Nat} (found : lastOccurrence? op.symbol.toList text = some offset) :
    op.isShift = false := by
  obtain ⟨-, passed⟩ := reaches
  have hidden : ∀ {op' : BinaryOperator}, Level.binary op' ∈ (Level.binary op).looser →
      Form.givesWay op' = false → ¬ op'.symbol.toList <+: op.symbol.toList := by
    intro op' mem firm isPrefix
    have absent := lastOccurrence?_eq_none_of_passes firm (passed _ mem)
    obtain ⟨s, t, rfl, -, closed, -⟩ := exists_of_lastOccurrence?_eq_some op.symbol_ne_nil found
    refine (lastOccurrence?_eq_none_iff op'.symbol_ne_nil).mp absent s (op.symbol.toList ++ t)
      (List.append_assoc ..) closed ?_
    exact isPrefix.trans (List.prefix_append _ t)
  cases op with
  | shiftLeft => exact absurd (by decide) (@hidden .below (by decide) rfl)
  | shiftRight => exact absurd (by decide) (@hidden .above (by decide) rfl)
  | shiftRightUnsigned => exact absurd (by decide) (@hidden .above (by decide) rfl)
  | _ => rfl

theorem unbracketed_of_wordChars (words : ∀ c ∈ text, isWordChar c = true ∨ c = '+' ∨ c = '-') :
    Unbracketed text := by
  intro c mem
  unfold BracketMark.ofChar?
  split
  all_goals first | rfl | (exact absurd (words _ mem) (by decide))

/-- Where no level applies a literal has no sign. -/
theorem wordChars_of_number? {value : Binary64} (accepted : Literal.number? text = some value)
    (passes : ∀ level ∈ Level.table, Passes text level) : ∀ c ∈ text, isWordChar c = true := by
  have chars := Literal.number?_chars accepted
  have unbracketed := unbracketed_of_wordChars chars
  have absent : ∀ op : BinaryOperator, Level.binary op ∈ Level.table →
      Form.givesWay op = false → ∀ c, op.symbol.toList = [c] → c ∉ text := by
    intro op mem firm c symbol inside
    have none := lastOccurrence?_eq_none_of_passes firm (passes _ mem)
    obtain ⟨s, t, rfl⟩ := List.append_of_mem inside
    rw [symbol, lastOccurrence?_eq_none_iff (by simp)] at none
    have behind : Unbracketed (c :: t) := fun d mem => unbracketed d (by simp [mem])
    exact none s (c :: t) rfl behind.depth_eq_zero ⟨t, rfl⟩
  intro c mem
  rcases chars c mem with word | rfl | rfl
  · exact word
  · exact absurd mem (absent .plus (by decide) rfl '+' rfl)
  · exact absurd mem (absent .minus (by decide) rfl '-' rfl)

/-- What is read without taking a text apart. -/
theorem derives_of_atom {e : Expr} (passes : ∀ level ∈ Level.table, Passes text level)
    (accepted : Form.atom text = .ok e) : Derives text e := by
  unfold Form.atom at accepted
  split at accepted
  · next isName =>
    cases accepted
    exact .argument isName
  · split at accepted
    · next value literal =>
      cases accepted
      exact .constant literal (wordChars_of_number? literal passes)
    · cases accepted

section Parts

variable (parts : ∀ part : List Char, part.length < text.length →
  ∀ e, read part = .ok e → Derives part e)

include parts

theorem derives_items {items : List (List Char × Expr)}
    (shorter : (listed (items.map (·.1))).length < text.length)
    (all : ∀ item ∈ items, read item.1 = .ok item.2) :
    ∀ item ∈ items, Derives item.1 item.2 := by
  intro item mem
  have inside := length_le_listed (List.mem_map_of_mem (f := (·.1)) mem)
  exact parts item.1 (Nat.lt_of_le_of_lt inside shorter) item.2 (all item mem)

theorem derives_of_call {name arguments : List Char} {e : Expr}
    (split : text = name ++ '(' :: arguments ++ [')']) (isName : isFunctionName name = true)
    (accepted : readCall name arguments = .ok e) : Derives text e := by
  have lengths := congrArg List.length split
  simp only [List.length_append, List.length_cons] at lengths
  obtain ⟨es, accepted, known⟩ := bind_eq_ok_iff.mp accepted
  obtain ⟨items, rfl, rfl, all⟩ := items_of_readList accepted
  split at known
  · cases known
  · next function found =>
    split at known
    · next fits =>
      cases known
      rw [split]
      exact .call isName found (by simpa using fits) (derives_items parts (by omega) all)
    · cases known

/-- An accepted text is a derivation when the accepted shorter texts are. -/
theorem derives_of_answers {e : Expr} (answers : Answers text (.ok e)) : Derives text e := by
  generalize answer_eq : (Except.ok e : Except Stop Expr) = answer at answers
  cases answers with
  | unbalanced _ => cases answer_eq
  | empty _ => cases answer_eq
  | lopsided _ => cases answer_eq
  | @conditional condition yes no _ split _ _ =>
    have lengths := congrArg List.length split
    simp only [List.length_append, List.length_cons] at lengths
    obtain ⟨c, hc, accepted⟩ := bind_eq_ok_iff.mp answer_eq.symm
    obtain ⟨y, hy, accepted⟩ := bind_eq_ok_iff.mp accepted
    obtain ⟨n, hn, accepted⟩ := bind_eq_ok_iff.mp accepted
    cases accepted
    rw [split]
    exact .conditional (parts _ (by omega) c hc) (parts _ (by omega) y (by simpa using hy))
      (parts _ (by omega) n (by simpa using hn))
  | @binary op left right _ reaches split found =>
    have symbol := List.length_pos_iff.mpr op.symbol_ne_nil
    have lengths := congrArg List.length split
    simp only [List.length_append] at lengths
    obtain ⟨l, hl, accepted⟩ := bind_eq_ok_iff.mp answer_eq.symm
    obtain ⟨r, hr, accepted⟩ := bind_eq_ok_iff.mp accepted
    cases accepted
    rw [split]
    exact .binary (isShift_eq_false_of_reaches reaches found) (parts _ (by omega) l hl)
      (parts _ (by omega) r (by simpa using hr))
  | @unary op operand _ reaches split =>
    have symbol := List.length_pos_iff.mpr op.symbol_ne_nil
    have lengths := congrArg List.length split
    simp only [List.length_append] at lengths
    obtain ⟨e', accepted, rfl⟩ := map_eq_ok_iff.mp answer_eq.symm
    have op_ne : op ≠ .negate := by
      rintro rfl
      exact absurd reaches.1 (by decide)
    rw [split]
    exact .unary op_ne (parts _ (by omega) e' (by simpa using accepted))
  | @group inner _ _ split =>
    have lengths := congrArg List.length split
    simp only [List.length_append, List.length_cons] at lengths
    rw [split]
    exact .group (parts _ (by omega) e (mapError_eq_ok_iff.mp answer_eq.symm))
  | unopened _ _ _ => cases answer_eq
  | @array list _ _ split _ =>
    have lengths := congrArg List.length split
    simp only [List.length_append, List.length_cons] at lengths
    obtain ⟨es, accepted, rfl⟩ := map_eq_ok_iff.mp answer_eq.symm
    obtain ⟨items, rfl, rfl, all⟩ := items_of_readList accepted
    rw [split]
    exact .array (derives_items parts (by omega) all)
  | @index items position _ _ split nonempty _ =>
    have lengths := congrArg List.length split
    simp only [List.length_append, List.length_cons] at lengths
    obtain ⟨a, ha, accepted⟩ := bind_eq_ok_iff.mp answer_eq.symm
    obtain ⟨p, hp, accepted⟩ := bind_eq_ok_iff.mp accepted
    cases accepted
    rw [split]
    exact .index (parts _ (by omega) a ha) (parts _ (by omega) p (by simpa using hp))
  | call _ _ split isName => exact derives_of_call parts split isName answer_eq.symm
  | unnamed _ _ => cases answer_eq
  | atom _ passes => exact derives_of_atom passes answer_eq.symm

end Parts

/-- Reading picks one of the trees that a text derives. -/
theorem derives_of_read {text : List Char} {e : Expr} (accepted : read text = .ok e) :
    Derives text e := by
  induction size : text.length using Nat.strongRecOn generalizing text e with
  | ind n ih =>
    obtain ⟨answer, answers, read_eq⟩ := answers_of_read text
    obtain ⟨trail, blank, split⟩ := trim_split text
    rw [read_eq, mapError_eq_ok_iff] at accepted
    subst accepted
    rw [split]
    refine .padded (allBlank_takeWhile text) blank (derives_of_answers ?_ answers)
    intro part shorter e accepted
    exact ih part.length (by have := length_trim_le text; omega) accepted rfl

/-- Only a balanced text has a tree. -/
theorem Answers.balanced {e : Expr} (answers : Answers text (.ok e)) : Balanced text := by
  generalize answer_eq : (Except.ok e : Except Stop Expr) = answer at answers
  cases answers with
  | unbalanced _ => cases answer_eq
  | empty _ => cases answer_eq
  | _ => assumption

theorem balanced_of_read {e : Expr} (accepted : read text = .ok e) : Balanced (trim text) := by
  obtain ⟨answer, answers, read_eq⟩ := answers_of_read text
  rw [read_eq, mapError_eq_ok_iff] at accepted
  subst accepted
  exact answers.balanced

end Expr

/-! ### How a derivation's text begins and ends -/

/-- A character that can begin an accepted text. -/
def isOpening (c : Char) : Bool :=
  isWordChar c || ['(', '[', '~', '!'].contains c

/-- A character that can end an accepted text. -/
def isClosing (c : Char) : Bool :=
  isWordChar c || [')', ']'].contains c

/-- The first character that is no blank can begin an accepted text. -/
def Opens (text : List Char) : Prop :=
  ∃ lead c rest, AllBlank lead ∧ isOpening c = true ∧ text = lead ++ c :: rest

/-- The last character that is no blank can end an accepted text. -/
def Closes (text : List Char) : Prop :=
  ∃ rest c trail, AllBlank trail ∧ isClosing c = true ∧ text = rest ++ c :: trail

section Ends

variable {text : List Char}

theorem Opens.of_head {c : Char} (opening : isOpening c = true) (rest : List Char) :
    Opens (c :: rest) :=
  ⟨[], c, rest, allBlank_nil, opening, rfl⟩

theorem Closes.of_last {c : Char} (closing : isClosing c = true) (rest : List Char) :
    Closes (rest ++ [c]) :=
  ⟨rest, c, [], allBlank_nil, closing, rfl⟩

theorem Opens.append (opens : Opens text) (behind : List Char) : Opens (text ++ behind) := by
  obtain ⟨lead, c, rest, blank, opening, rfl⟩ := opens
  exact ⟨lead, c, rest ++ behind, blank, opening, by simp⟩

theorem Closes.append (closes : Closes text) (front : List Char) : Closes (front ++ text) := by
  obtain ⟨rest, c, trail, blank, closing, rfl⟩ := closes
  exact ⟨front ++ rest, c, trail, blank, closing, by simp⟩

theorem Opens.pad {lead : List Char} (blank : AllBlank lead) (opens : Opens text) :
    Opens (lead ++ text) := by
  obtain ⟨lead', c, rest, blank', opening, rfl⟩ := opens
  exact ⟨lead ++ lead', c, rest, blank.append blank', opening, by simp⟩

theorem Closes.pad {trail : List Char} (blank : AllBlank trail) (closes : Closes text) :
    Closes (text ++ trail) := by
  obtain ⟨rest, c, trail', blank', closing, rfl⟩ := closes
  exact ⟨rest, c, trail' ++ trail, blank'.append blank, closing, by simp⟩

theorem Opens.head (opens : Opens text) :
    ∀ c ∈ text.head?, isBlank c = true ∨ isOpening c = true := by
  intro c head
  obtain ⟨lead, d, rest, blank, opening, rfl⟩ := opens
  cases lead with
  | nil =>
    cases Option.some.inj head
    exact .inr opening
  | cons b lead =>
    cases Option.some.inj head
    exact .inl (blank c List.mem_cons_self)

theorem Closes.last (closes : Closes text) :
    ∀ c ∈ text.getLast?, isBlank c = true ∨ isClosing c = true := by
  intro c last
  obtain ⟨rest, d, trail, blank, closing, rfl⟩ := closes
  rw [List.getLast?_append_of_ne_nil _ (by simp)] at last
  rcases List.mem_cons.mp (List.mem_of_getLast? last) with rfl | mem
  · exact .inr closing
  · exact .inl (blank c mem)

theorem opens_of_wordChars (nonempty : text ≠ []) (words : ∀ c ∈ text, isWordChar c = true) :
    Opens text := by
  obtain ⟨c, rest, rfl⟩ := List.exists_cons_of_ne_nil nonempty
  exact .of_head (by simp [isOpening, words c]) rest

theorem closes_of_wordChars (nonempty : text ≠ []) (words : ∀ c ∈ text, isWordChar c = true) :
    Closes text := by
  rw [← List.dropLast_concat_getLast nonempty]
  exact .of_last (by simp [isClosing, words _ (List.getLast_mem nonempty)]) _

theorem wordChars_of_isFunctionName (isName : isFunctionName text = true) :
    text ≠ [] ∧ ∀ c ∈ text, isWordChar c = true := by
  simp only [isFunctionName, Bool.and_eq_true, List.all_eq_true] at isName
  exact ⟨by simpa using isName.1, fun c mem => isWordChar_of_isNameChar (isName.2 c mem)⟩

theorem MathFunction.isArgumentName_name (function : MathFunction) :
    isArgumentName function.name.toList = true := by
  cases function <;> decide

theorem number?_nil : Literal.number? [] = none := by
  decide

theorem Derives.opens {e : Expr} (derives : Derives text e) : Opens text := by
  induction derives with
  | padded leading _ _ ih => exact (ih.pad leading).append _
  | constant accepted words =>
    refine opens_of_wordChars ?_ words
    rintro rfl
    exact nomatch number?_nil.symm.trans accepted
  | argument isName =>
    obtain ⟨nonempty, words⟩ :=
      wordChars_of_isFunctionName (isFunctionName_of_isArgumentName isName)
    exact opens_of_wordChars nonempty words
  | @unary op _ _ op_ne _ _ =>
    cases op with
    | negate => exact absurd rfl op_ne
    | complement => exact .of_head rfl _
    | not => exact .of_head rfl _
  | binary _ _ _ left _ => exact (left.append _).append _
  | conditional _ _ _ condition _ _ => exact (condition.append _).append _
  | group _ _ => exact .of_head rfl _
  | array _ _ => exact .of_head rfl _
  | index _ _ items _ => exact (items.append _).append _
  | call isName _ _ _ _ =>
    obtain ⟨nonempty, words⟩ := wordChars_of_isFunctionName isName
    exact ((opens_of_wordChars nonempty words).append _).append _

theorem Derives.closes {e : Expr} (derives : Derives text e) : Closes text := by
  induction derives with
  | padded _ trailing _ ih => exact (ih.append _).pad trailing
  | constant accepted words =>
    refine closes_of_wordChars ?_ words
    rintro rfl
    exact nomatch number?_nil.symm.trans accepted
  | argument isName =>
    obtain ⟨nonempty, words⟩ :=
      wordChars_of_isFunctionName (isFunctionName_of_isArgumentName isName)
    exact closes_of_wordChars nonempty words
  | unary _ _ ih => exact ih.append _
  | binary _ _ _ _ right => exact right.append _
  | conditional _ _ _ _ _ no => exact (no.append [':']).append _
  | group _ _ => exact .of_last rfl _
  | array _ _ => exact .of_last rfl _
  | index _ _ _ _ => exact .of_last rfl _
  | call _ _ _ _ _ => exact .of_last rfl _

end Ends

end SelectionFormula
