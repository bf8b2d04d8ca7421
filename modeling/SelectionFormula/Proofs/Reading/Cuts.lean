import SelectionFormula.Proofs.Reading.Location

/-!
The cuts that reading makes.

A `Traced` answer comes with the cuts made on the way to it. The traced readings go through the
forms as `Expr.read` does and note each cut before they make it; the notes change no answer
(`result_read`). Every cut is in order, inside the text that is cut, and between characters
(`Cut.InRange`), for a form whenever the parts are read so, and so by induction for a reading
(`safe_read`). The commas of a list are counted from the list's own front, with no regard to how
its brackets nest, and still the cuts at them are its pieces (`safe_readBetween`).
-/

namespace SelectionFormula

open Text

/-- The taking of what lies between two byte offsets of a text. -/
structure Cut where
  text : List Char
  start : Nat
  finish : Nat
  deriving DecidableEq, Repr

/-- The offsets are in order and inside the text, and characters are left whole. -/
structure Cut.InRange (cut : Cut) : Prop where
  ordered : cut.start ≤ cut.finish
  inside : cut.finish ≤ byteLength cut.text
  start : Boundary cut.text cut.start
  finish : Boundary cut.text cut.finish

section InRange

variable {text s t : List Char}

theorem inRange_mid {mid : List Char} (split : text = s ++ mid ++ t) :
    Cut.InRange ⟨text, byteLength s, byteLength s + byteLength mid⟩ where
  ordered := Nat.le_add_right _ _
  inside := by
    change _ ≤ byteLength text
    rw [split, byteLength_append, byteLength_append]
    exact Nat.le_add_right _ _
  start := ⟨s, mid ++ t, by simpa using split, rfl⟩
  finish := ⟨s ++ mid, t, split, (byteLength_append s mid).symm⟩

theorem inRange_front (split : text = s ++ t) : Cut.InRange ⟨text, 0, byteLength s⟩ := by
  have front := @inRange_mid text [] t s (by simpa using split)
  rwa [byteLength_nil, Nat.zero_add] at front

theorem inRange_back (split : text = s ++ t) :
    Cut.InRange ⟨text, byteLength s, byteLength text⟩ := by
  have back := @inRange_mid text s [] t (by simpa using split)
  rwa [← byteLength_append, ← split] at back

/-- What is cut out between two offsets takes the bytes between them. -/
theorem add_byteLength_of_part? {part : List Char} {start finish : Nat}
    (cut : part? text start finish = some part) : start + byteLength part = finish := by
  have taken : ∀ {n : Nat} {text part : List Char}, take? n text = some part →
      byteLength part = n := by
    intro n text
    fun_induction take? n text with
    | case1 => rintro _ ⟨⟩; rfl
    | case2 => nofun
    | case3 n c text narrow ih =>
      intro part taken
      obtain ⟨rest, at_rest, rfl⟩ := Option.map_eq_some_iff.mp taken
      rw [byteLength_cons, ih at_rest]
      omega
    | case4 => nofun
  rw [part?] at cut
  split at cut
  · obtain ⟨rest, -, at_rest⟩ := Option.bind_eq_some_iff.mp cut
    rw [taken at_rest]
    omega
  · cases cut

/-- Where the part between a character and the last one begins and ends. -/
theorem inner_offsets {mid : List Char} {c d : Char} (split : text = s ++ c :: mid ++ [d])
    (narrow : c.utf8Size = 1) (narrow' : d.utf8Size = 1) :
    byteLength s + 1 = byteLength (s ++ [c]) ∧
      byteLength text - 1 = byteLength (s ++ [c]) + byteLength mid := by
  constructor
  · rw [byteLength_append, byteLength_cons, narrow]
    rfl
  · rw [Expr.byteLength_sub_one narrow' split, ← byteLength_append, List.append_assoc]
    rfl

end InRange

/-- An answer with the cuts made on the way to it. -/
structure Traced (α : Type) where
  cuts : List Cut
  result : Except Stop α

namespace Traced

variable {α β : Type}

/-- An answer that takes no cut. -/
def of (result : Except Stop α) : Traced α :=
  ⟨[], result⟩

def note (cut : Cut) : Traced Unit :=
  ⟨[cut], .ok ()⟩

/-- Nothing is cut any more behind a stop. -/
protected def bind (first : Traced α) (next : α → Traced β) : Traced β :=
  match first.result with
  | .ok a => ⟨first.cuts ++ (next a).cuts, (next a).result⟩
  | .error stop => ⟨first.cuts, .error stop⟩

instance : Monad Traced where
  pure a := of (.ok a)
  bind := Traced.bind

/-- The same cuts on the way to what is made of the answer. -/
def map (f : α → β) (traced : Traced α) : Traced β :=
  ⟨traced.cuts, traced.result.map f⟩

/-- The same cuts, the answer seen from a text that has more in front. -/
def shifted (traced : Traced α) (offset : Nat) : Traced α :=
  ⟨traced.cuts, traced.result.mapError (·.shifted offset)⟩

/-- A rejection passed over; the cuts have been made all the same. -/
def orPass (traced : Traced α) : Traced (Option α) :=
  ⟨traced.cuts,
    match traced.result with
    | .error (.rejected _) => .ok none
    | result => result.map some⟩

/-! ### The readings -/

/-- A traced way to read what is shorter than a text. -/
abbrev Reader (text : List Char) :=
  Shorter text → Traced Expr

section Forms

variable {text : List Char} (read : Reader text)

def readPart (start finish : Nat) : Traced Expr := do
  note ⟨text, start, finish⟩
  match properPart? text start finish with
  | none => of (.error .outOfText)
  | some part => (read part).shifted start

/-- The items of a list that begins at a base, by offsets into the list: what is cut out of the
list is read where it is in the text. -/
def readBetween (list : List Char) (base : Nat) : Nat → List Nat → Traced (List Expr)
  | _, [] => pure []
  | start, finish :: later => do
    note ⟨list, start, finish⟩
    let item ← readPart read (base + start) (base + finish)
    let items ← readBetween list base (finish + 1) later
    return item :: items

def readItems (start finish : Nat) : Traced (List Expr) := do
  note ⟨text, start, finish⟩
  match part? text start finish with
  | none => of (.error .outOfText)
  | some [] => pure []
  | some list => readBetween read list start 0 (occurrences [','] list ++ [byteLength list])

def conditional? : Traced (Option Expr) :=
  match lastOccurrence? ['?'] text, lastOccurrence? [':'] text with
  | none, none => pure none
  | some question, some colon =>
    if question < colon then
      map some do
        let condition ← readPart read 0 question
        let yes ← readPart read (question + 1) colon
        let no ← readPart read (colon + 1) (byteLength text)
        return .conditional condition yes no
    else of (reject .unparsableToken 0)
  | _, _ => of (reject .unparsableToken 0)

def binary? (op : BinaryOperator) : Traced (Option Expr) :=
  match lastOccurrence? op.symbol.toList text with
  | none => pure none
  | some offset =>
    let tree : Traced Expr := do
      let left ← readPart read 0 offset
      let right ← readPart read (offset + byteLength op.symbol.toList) (byteLength text)
      return .binary op left right
    if Form.givesWay op then tree.orPass else tree.map some

def unary? (op : UnaryOperator) : Traced (Option Expr) :=
  if op.symbol.toList.isPrefixOf text then
    ((readPart read (byteLength op.symbol.toList) (byteLength text)).map (.unary op)).map some
  else pure none

def answer? : Level → Traced (Option Expr)
  | .conditional => conditional? read
  | .binary op => binary? read op
  | .unary op => unary? read op

def bracketed : Traced Expr :=
  let close := byteLength text - 1
  match lastOccurrence? ['['] text with
  | none => of (reject .unbalancedParentheses close)
  | some 0 => (readItems read 1 close).map .array
  | some opening => do
    let items ← readPart read 0 opening
    let position ← readPart read (opening + 1) close
    return .index items position

/-- The name is cut off at the first opening parenthesis before anything is known about it. -/
def call : Traced Expr :=
  let name := text.takeWhile (· != '(')
  if text.contains '(' then do
    note ⟨text, 0, byteLength name⟩
    if isFunctionName name then
      let arguments ← readItems read (byteLength name + 1) (byteLength text - 1)
      match MathFunction.ofName? (String.ofList name) with
      | none => of (reject .unknownFunction 0)
      | some function =>
        if function.arity.accepts arguments.length then return .call function arguments
        else of (reject .wrongArgumentCount 0)
    else of (reject .invalidFunctionSyntax 0)
  else of (reject .invalidFunctionSyntax 0)

def operand : Traced Expr :=
  if text.head? = some '(' ∧ text.getLast? = some ')' then readPart read 1 (byteLength text - 1)
  else if text.getLast? = some ']' then bracketed read
  else if text.getLast? = some ')' then call read
  else of (Form.atom text)

def readTrimmed : Traced Expr :=
  match firstFault? text with
  | some offset => of (reject .unbalancedParentheses offset)
  | none =>
    if text = [] then of (reject .emptyInput 0)
    else do
      match ← Level.table.findSomeM? (answer? read) with
      | some tree => return tree
      | none => operand read

end Forms

/-- Read an expression and note every cut. -/
def read (text : List Char) : Traced Expr := do
  let leading := byteLength (text.takeWhile isBlank)
  note ⟨text, leading, leading + byteLength (trim text)⟩
  (readTrimmed fun part : Shorter (trim text) => read part.val).shifted leading
termination_by text.length
decreasing_by
  exact Nat.lt_of_lt_of_le part.property (length_trim_le text)

/-! ### The notes change no answer -/

@[simp] theorem result_pure (a : α) : (pure a : Traced α).result = .ok a := rfl

@[simp] theorem result_note_bind (cut : Cut) (next : Unit → Traced α) :
    (note cut >>= next).result = (next ()).result := rfl

@[simp] theorem result_bind (first : Traced α) (next : α → Traced β) :
    (first >>= next).result = first.result >>= fun a => (next a).result := by
  change (Traced.bind first next).result = _
  unfold Traced.bind
  cases first.result <;> rfl

@[simp] theorem result_map (f : α → β) (traced : Traced α) :
    (traced.map f).result = traced.result.map f := rfl

@[simp] theorem result_shifted (traced : Traced α) (offset : Nat) :
    (traced.shifted offset).result = traced.result.mapError (·.shifted offset) := rfl

/-- An answer that may be none, as an answer of a tree that may be none. -/
def settled : Option (Except Stop α) → Except Stop (Option α)
  | none => .ok none
  | some answer => answer.map some

/-- Notes are made of what is passed over, and change nothing about which answer is first. -/
theorem result_findSomeM? {f : Level → Traced (Option Expr)}
    {plain : Level → Option (Except Stop Expr)}
    (same : ∀ level, (f level).result = settled (plain level)) (levels : List Level) :
    (levels.findSomeM? f).result = settled (levels.findSome? plain) := by
  induction levels with
  | nil => rfl
  | cons level levels ih =>
    rw [List.findSomeM?, result_bind, same, List.findSome?_cons]
    cases plain level with
    | none => exact ih
    | some answer => cases answer <;> rfl

section Forms

variable {text : List Char} (read : Reader text)

@[simp] theorem result_readPart (start finish : Nat) :
    (readPart read start finish).result =
      Form.readPart (fun part => (read part).result) start finish := by
  rw [readPart, Form.readPart, result_note_bind]
  cases properPart? text start finish <;> rfl

theorem result_readBetween (list : List Char) (base start : Nat) (finishes : List Nat) :
    (readBetween read list base start finishes).result =
      Form.readBetween (fun part => (read part).result) (base + start)
        (finishes.map (base + ·)) := by
  induction finishes generalizing start with
  | nil => rfl
  | cons finish later ih =>
    simp only [readBetween, Form.readBetween, result_bind, result_readPart, ih, List.map_cons]
    rfl

@[simp] theorem result_readItems (start finish : Nat) :
    (readItems read start finish).result =
      Form.readItems (fun part => (read part).result) start finish := by
  rw [readItems, Form.readItems, result_note_bind]
  cases whole : part? text start finish with
  | none => rfl
  | some list =>
    cases list with
    | nil => rfl
    | cons c list =>
      have end_eq := add_byteLength_of_part? whole
      refine (result_readBetween read _ start 0 _).trans ?_
      rw [List.map_append, List.map_singleton, end_eq]
      rfl

theorem result_conditional? :
    (conditional? read).result =
      settled (Form.conditional? fun part => (read part).result) := by
  rw [conditional?, Form.conditional?]
  cases lastOccurrence? ['?'] text with
  | none => cases lastOccurrence? [':'] text <;> rfl
  | some question =>
    cases lastOccurrence? [':'] text with
    | none => rfl
    | some colon =>
      dsimp only
      split
      · simp only [result_map, result_bind, result_readPart, result_pure]
        rfl
      · rfl

theorem result_binary? (op : BinaryOperator) :
    (binary? read op).result =
      settled (Form.binary? op fun part => (read part).result) := by
  rw [binary?, Form.binary?]
  cases lastOccurrence? op.symbol.toList text with
  | none => rfl
  | some offset =>
    dsimp only
    generalize found : (do
      let left ← readPart read 0 offset
      let right ← readPart read (offset + byteLength op.symbol.toList) (byteLength text)
      return Expr.binary op left right : Traced Expr) = tree
    have same : (do
        let left ← Form.readPart (fun part => (read part).result) 0 offset
        let right ← Form.readPart (fun part => (read part).result)
          (offset + byteLength op.symbol.toList) (byteLength text)
        return .binary op left right) = tree.result := by
      simp only [← found, result_bind, result_readPart, result_pure]
      rfl
    rw [same]
    clear same found
    obtain ⟨cuts, result⟩ := tree
    cases Form.givesWay op <;> rcases result with (rejection | _) | e <;> rfl

theorem result_unary? (op : UnaryOperator) :
    (unary? read op).result = settled (Form.unary? op fun part => (read part).result) := by
  rw [unary?, Form.unary?]
  split
  · simp only [result_map, result_readPart]
    rfl
  · rfl

theorem result_answer? (level : Level) :
    (answer? read level).result = settled (level.answer? fun part => (read part).result) := by
  cases level with
  | conditional => exact result_conditional? read
  | binary op => exact result_binary? read op
  | unary op => exact result_unary? read op

theorem result_bracketed :
    (bracketed read).result = Form.bracketed fun part => (read part).result := by
  rw [bracketed, Form.bracketed]
  rcases lastOccurrence? ['['] text with _ | _ | opening
  · rfl
  · simp only [result_map, result_readItems]
  · simp only [result_bind, result_readPart, result_pure]
    rfl

theorem result_call : (call read).result = Form.call fun part => (read part).result := by
  rw [call, Form.call]
  cases text.contains '(' with
  | false => rfl
  | true =>
    simp only [if_true, result_note_bind, Bool.true_and]
    split
    · rw [result_bind, result_readItems]
      congr 1
      funext arguments
      cases MathFunction.ofName? _ with
      | none => rfl
      | some function =>
        dsimp only
        split <;> rfl
    · rfl

theorem result_operand :
    (operand read).result = Form.operand fun part => (read part).result := by
  rw [operand, Form.operand]
  split
  · exact result_readPart read _ _
  split
  · exact result_bracketed read
  split
  · exact result_call read
  · rfl

theorem result_readTrimmed :
    (readTrimmed read).result = Expr.readTrimmed fun part => (read part).result := by
  rw [readTrimmed, Expr.readTrimmed]
  cases firstFault? text with
  | some offset => rfl
  | none =>
    dsimp only
    split
    · rfl
    · rw [result_bind, result_findSomeM? (result_answer? read)]
      cases Level.table.findSome? (Level.answer? fun part => (read part).result) with
      | none => exact result_operand read
      | some answer => cases answer <;> rfl

end Forms

/-- A traced reading answers as the reading does. -/
theorem result_read (text : List Char) : (read text).result = Expr.read text := by
  induction size : text.length using Nat.strongRecOn generalizing text with
  | ind n ih =>
    have parts : (fun part : Shorter (trim text) => (read part.val).result) =
        fun part => Expr.read part.val := by
      funext part
      have := length_trim_le text
      exact ih part.val.length (by have := part.property; omega) part.val rfl
    rw [read, Expr.read, result_note_bind, result_shifted, result_readTrimmed, parts]

/-! ### The cuts are in range -/

/-- Every cut on the way to an answer is in range. -/
def Safe (traced : Traced α) : Prop :=
  ∀ cut ∈ traced.cuts, cut.InRange

theorem safe_of (result : Except Stop α) : (of result).Safe := by
  simp [Safe, of]

theorem safe_pure (a : α) : (pure a : Traced α).Safe :=
  safe_of (.ok a)

theorem Safe.map {traced : Traced α} (safe : traced.Safe) (f : α → β) : (traced.map f).Safe :=
  safe

theorem Safe.bind {first : Traced α} {next : α → Traced β} (safe : first.Safe)
    (later : ∀ a, (next a).Safe) : (first >>= next).Safe := by
  change (Traced.bind first next).Safe
  unfold Traced.bind
  cases first.result with
  | error stop => exact safe
  | ok a => exact List.forall_mem_append.mpr ⟨safe, later a⟩

theorem safe_note_bind {cut : Cut} {next : Unit → Traced α} (inRange : cut.InRange)
    (later : (next ()).Safe) : (note cut >>= next).Safe :=
  Safe.bind (List.forall_mem_singleton.mpr inRange) fun _ => later

theorem safe_findSomeM? {f : Level → Traced (Option Expr)} (safe : ∀ level, (f level).Safe)
    (levels : List Level) : (levels.findSomeM? f).Safe := by
  induction levels with
  | nil => exact safe_pure none
  | cons level levels ih =>
    refine (safe level).bind fun found => ?_
    cases found with
    | none => exact ih
    | some tree => exact safe_pure _

section Forms

variable {text : List Char} {read : Reader text} (parts : ∀ part, (read part).Safe)

include parts

theorem safe_readPart {start finish : Nat} (inRange : Cut.InRange ⟨text, start, finish⟩) :
    (readPart read start finish).Safe := by
  refine safe_note_bind inRange ?_
  split
  · exact safe_of _
  · exact parts _

/-- The pieces of a list, from one of them on. In front of it are the list's own front and what
is in front of the list. -/
theorem safe_readBetween {s t list front first : List Char} {later : List (List Char)}
    (split : text = s ++ list ++ t) (cut : list = front ++ joined ',' first later) :
    (readBetween read list (byteLength s) (byteLength front)
      (ends (byteLength front) first later)).Safe := by
  have piece : ∀ {front first rest : List Char}, list = front ++ first ++ rest →
      ∀ {next : Expr → Traced (List Expr)}, (∀ item, (next item).Safe) →
      (note ⟨list, byteLength front, byteLength front + byteLength first⟩ >>= fun _ =>
        readPart read (byteLength s + byteLength front)
          (byteLength s + (byteLength front + byteLength first)) >>= next).Safe := by
    intro front first rest cut next others
    have within := @inRange_mid text (s ++ front) (rest ++ t) first (by simp [split, cut])
    rw [byteLength_append, Nat.add_assoc] at within
    exact safe_note_bind (inRange_mid cut) ((safe_readPart parts within).bind others)
  induction later generalizing front first with
  | nil =>
    exact @piece front first [] (by simpa using cut) _ fun _ => safe_pure _
  | cons next later ih =>
    have here : list = front ++ first ++ ',' :: joined ',' next later := by simpa using cut
    have others := @ih (front ++ first ++ [',']) next (by simpa using here)
    have size : byteLength [','] = 1 := rfl
    rw [byteLength_append, byteLength_append, size] at others
    exact piece here fun _ => others.bind fun _ => safe_pure _

theorem safe_readItems {s t list : List Char} (split : text = s ++ list ++ t) :
    (readItems read (byteLength s) (byteLength s + byteLength list)).Safe := by
  have whole : part? text (byteLength s) (byteLength s + byteLength list) = some list := by
    rw [split]
    exact part?_append s list t
  refine safe_note_bind (inRange_mid split) ?_
  rw [whole]
  cases list with
  | nil => exact safe_pure []
  | cons c list =>
    have commas := @occurrencesFrom_ends ',' rfl 0 0 (c :: list)
    have again := piecesFrom_joined ',' 0 (c :: list)
    rw [Nat.zero_add] at commas
    dsimp only
    rw [occurrences, commas]
    exact @safe_readBetween text read parts s t (c :: list) [] _ _ split again.symm

theorem safe_conditional? : (conditional? read).Safe := by
  rw [conditional?]
  cases question : lastOccurrence? ['?'] text with
  | none => cases lastOccurrence? [':'] text <;> exact safe_of _
  | some q =>
    cases colon : lastOccurrence? [':'] text with
    | none => exact safe_of _
    | some k =>
      dsimp only
      split
      · next ordered =>
        obtain ⟨condition, yes, no, split, rfl, rfl⟩ :=
          Expr.exists_conditional_split question colon ordered
        have front : Cut.InRange ⟨text, 0, byteLength condition⟩ :=
          @inRange_front text condition ('?' :: yes ++ ':' :: no) (by simpa using split)
        have middle := @inRange_mid text (condition ++ ['?']) (':' :: no) yes (by simpa using split)
        have back := @inRange_back text (condition ++ '?' :: yes ++ [':']) no (by simpa using split)
        have size : Char.utf8Size '?' = 1 ∧ Char.utf8Size ':' = 1 := ⟨rfl, rfl⟩
        simp only [byteLength_append, byteLength_cons, byteLength_nil, size.1, size.2,
          Nat.add_zero, Nat.add_assoc] at middle back ⊢
        exact Safe.map ((safe_readPart parts front).bind fun _ =>
          (safe_readPart parts middle).bind fun _ =>
          (safe_readPart parts back).bind fun _ => safe_pure _) some
      · exact safe_of _

theorem safe_binary? (op : BinaryOperator) : (binary? read op).Safe := by
  rw [binary?]
  cases found : lastOccurrence? op.symbol.toList text with
  | none => exact safe_pure none
  | some offset =>
    obtain ⟨left, right, split, rfl, -⟩ :=
      exists_of_lastOccurrence?_eq_some op.symbol_ne_nil found
    have front : Cut.InRange ⟨text, 0, byteLength left⟩ :=
      @inRange_front text left (op.symbol.toList ++ right) (by simpa using split)
    have back := inRange_back split
    rw [byteLength_append] at back
    have tree : (do
        let l ← readPart read 0 (byteLength left)
        let r ← readPart read (byteLength left + byteLength op.symbol.toList) (byteLength text)
        return Expr.binary op l r : Traced Expr).Safe :=
      (safe_readPart parts front).bind fun _ =>
        (safe_readPart parts back).bind fun _ => safe_pure _
    dsimp only
    split
    · exact tree
    · exact tree.map some

theorem safe_unary? (op : UnaryOperator) : (unary? read op).Safe := by
  rw [unary?]
  split
  · next front =>
    obtain ⟨operand, split⟩ := List.isPrefixOf_iff_prefix.mp front
    exact ((safe_readPart parts (inRange_back split.symm)).map _).map some
  · exact safe_pure none

theorem safe_answer? (level : Level) : (answer? read level).Safe := by
  cases level with
  | conditional => exact safe_conditional? parts
  | binary op => exact safe_binary? parts op
  | unary op => exact safe_unary? parts op

theorem safe_bracketed (last : text.getLast? = some ']') : (bracketed read).Safe := by
  rw [bracketed]
  cases found : lastOccurrence? ['['] text with
  | none => exact safe_of _
  | some opening =>
    obtain ⟨items, inner, split, rfl⟩ := Expr.exists_bracketed_split last found
    obtain ⟨start, finish⟩ := inner_offsets split rfl rfl
    cases items with
    | nil =>
      rw [finish]
      exact (@safe_readItems text read parts ['['] [']'] inner split).map Expr.array
    | cons c items =>
      have front : Cut.InRange ⟨text, 0, byteLength (c :: items)⟩ :=
        @inRange_front text (c :: items) ('[' :: inner ++ [']']) (by simpa using split)
      have middle := @inRange_mid text (c :: items ++ ['[']) [']'] inner (by simpa using split)
      obtain ⟨opening, at_opening⟩ : ∃ n, byteLength (c :: items) = n + 1 := by
        have := utf8Size_pos c
        exact ⟨c.utf8Size + byteLength items - 1, by rw [byteLength_cons]; omega⟩
      rw [← finish, ← start, at_opening] at middle
      rw [at_opening] at front ⊢
      exact (safe_readPart parts front).bind fun _ =>
        (safe_readPart parts middle).bind fun _ => safe_pure _

theorem safe_call (last : text.getLast? = some ')') : (call read).Safe := by
  rw [call]
  split
  · next opens =>
    obtain ⟨arguments, split⟩ := Expr.exists_call_split opens last
    obtain ⟨start, finish⟩ := inner_offsets split rfl rfl
    refine safe_note_bind (@inRange_front text _ ('(' :: arguments ++ [')']) ?_) ?_
    · simpa using split
    split
    · rw [start, finish]
      refine (safe_readItems parts (by simpa using split)).bind fun es => ?_
      split
      · exact safe_of _
      · split
        · exact safe_pure _
        · exact safe_of _
    · exact safe_of _
  · exact safe_of _

theorem safe_operand : (operand read).Safe := by
  rw [operand]
  split
  · next ends =>
    obtain ⟨back, opened⟩ := List.head?_eq_some_iff.mp ends.1
    obtain ⟨inner, rfl⟩ := @Expr.exists_inner text [] back _ _ opened ends.2 (by decide)
    obtain ⟨-, finish⟩ := @inner_offsets text [] inner '(' ')' opened rfl rfl
    rw [finish]
    exact safe_readPart parts (@inRange_mid text ['('] [')'] inner opened)
  split
  · next last => exact safe_bracketed parts last
  split
  · next last => exact safe_call parts last
  · exact safe_of _

theorem safe_readTrimmed : (readTrimmed read).Safe := by
  rw [readTrimmed]
  cases firstFault? text with
  | some offset => exact safe_of _
  | none =>
    dsimp only
    split
    · exact safe_of _
    · refine (safe_findSomeM? (safe_answer? parts) Level.table).bind fun found => ?_
      cases found with
      | none => exact safe_operand parts
      | some tree => exact safe_pure tree

end Forms

/-- Every cut of a reading is in range. -/
theorem safe_read (text : List Char) : (read text).Safe := by
  induction size : text.length using Nat.strongRecOn generalizing text with
  | ind n ih =>
    obtain ⟨trail, -, split⟩ := trim_split text
    have trimmed := @safe_readTrimmed (trim text) (fun part => read part.val) fun part => by
      have := length_trim_le text
      exact ih part.val.length (by have := part.property; omega) part.val rfl
    rw [read]
    exact safe_note_bind (inRange_mid split) trimmed

end Traced

/-- Reading a text takes no cut out of range, and so never asks for what is outside a text. -/
theorem cuts_inRange (text : List Char) :
    (Traced.read text).result = Expr.read text ∧
    (∀ cut ∈ (Traced.read text).cuts, cut.InRange) ∧
    Expr.read text ≠ .error .outOfText := by
  refine ⟨Traced.result_read text, Traced.safe_read text, fun stopped => ?_⟩
  obtain ⟨rejection, rejected, -⟩ := Expr.located_read text _ stopped
  cases rejected

/-- The commas that arguments are cut at, where the parentheses around them are not partners. -/
example : (Traced.read "max(a,b),(c,d)".toList).cuts.map
      (fun cut => (String.ofList cut.text, cut.start, cut.finish)) =
    [("max(a,b),(c,d)", 0, 14), ("max(a,b),(c,d)", 0, 3), ("max(a,b),(c,d)", 4, 13),
      ("a,b),(c,d", 0, 1), ("max(a,b),(c,d)", 4, 5), ("a", 0, 1),
      ("a,b),(c,d", 2, 7), ("max(a,b),(c,d)", 6, 11), ("b),(c", 0, 5)] := by
  cbv

end SelectionFormula
