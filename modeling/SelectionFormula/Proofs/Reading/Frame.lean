import SelectionFormula.Proofs.Reading.Outside

/-!
Texts inside larger texts.

A frame is what can stand around a text: blanks, brackets, a list with other items, a
position, an operator with a parenthesis. A text that is not blank and that is one item
where it stands in a list (`SelfContained`) is read inside a frame as it is read alone: it
is rejected for the same cause, at the place moved by what stands in front, and its tree
becomes a part of the frame's (`Frame.carries`). What is in a frame is self-contained again
(`Frame.selfContained`), so the same holds of any number of frames, one inside the other
(`read_fillAll`).
-/

namespace SelectionFormula

open Text

/-! ### Frames -/

/-- An accepted text in front of the hole of a list. -/
structure Item where
  chars : List Char
  tree : Expr
  accepted : Expr.read chars = .ok tree

/-- What stands behind the hole of a list. -/
inductive Behind where
  | nothing
  | further (list : List Char) (balanced : Balanced list)

/-- Items with a comma behind each. -/
def itemsBefore : List Item → List Char
  | [] => []
  | item :: later => item.chars ++ ',' :: itemsBefore later

def Behind.chars : Behind → List Char
  | nothing => []
  | further list _ => ',' :: list

/-- The items behind the hole. -/
def Behind.items : Behind → List (List Char)
  | nothing => []
  | further list _ => pieces ',' list

/-- The trees of the items behind the hole, if all are accepted. -/
def Behind.trees? (behind : Behind) : Option (List Expr) :=
  behind.items.mapM fun item => (Expr.read item).toOption

/-- What can stand around a text. -/
inductive Frame where
  | pad (lead trail : List Char) (leading : AllBlank lead) (trailing : AllBlank trail)
  | group
  | array (before : List Item) (behind : Behind)
  | call (name : List Char) (isName : isFunctionName name = true) (before : List Item)
      (behind : Behind)
  | index (items : Atom) (bare : ∀ c ∈ (trimStart items.chars).head?, c ≠ '~' ∧ c ≠ '!')
  | unary (op : UnaryOperator) (op_ne : op ≠ .negate) (gap : List Char) (blank : AllBlank gap)
  | asRight (left : Atom) (op : BinaryOperator) (firm : op.isShift = false) (other : op ≠ .times)
      (gap : List Char) (blank : AllBlank gap)
  | asLeft (gap : List Char) (blank : AllBlank gap) (op : BinaryOperator)
      (firm : op.isShift = false) (other : op ≠ .times) (right : Atom)

namespace Frame

/-- What a frame puts in front of a text. -/
def front : Frame → List Char
  | pad lead _ _ _ => lead
  | group => ['(']
  | array before _ => '[' :: itemsBefore before
  | call name _ before _ => name ++ '(' :: itemsBefore before
  | index items _ => items.chars ++ ['[']
  | unary op _ gap _ => op.symbol.toList ++ gap ++ ['(']
  | asRight left op _ _ gap _ => left.chars ++ op.symbol.toList ++ gap ++ ['(']
  | asLeft _ _ _ _ _ _ => ['(']

/-- What a frame puts behind a text. -/
def back : Frame → List Char
  | pad _ trail _ _ => trail
  | group => [')']
  | array _ behind => behind.chars ++ [']']
  | call _ _ _ behind => behind.chars ++ [')']
  | index _ _ => [']']
  | unary _ _ _ _ => [')']
  | asRight _ _ _ _ _ _ => [')']
  | asLeft gap _ op _ _ right => ')' :: gap ++ op.symbol.toList ++ right.chars

def fill (frame : Frame) (text : List Char) : List Char :=
  frame.front ++ text ++ frame.back

/-- The tree of a frame around a text with a tree, if the frame's own parts are accepted. -/
def tree? : Frame → Expr → Option Expr
  | pad _ _ _ _, e => some e
  | group, e => some e
  | array before behind, e => do
    let later ← behind.trees?
    return .array (before.map (·.tree) ++ e :: later)
  | call name _ before behind, e => do
    let later ← behind.trees?
    let function ← MathFunction.ofName? (String.ofList name)
    let arguments := before.map (·.tree) ++ e :: later
    if function.arity.accepts arguments.length then return .call function arguments else none
  | index items _, e => some (.index items.tree e)
  | unary op _ _ _, e => some (.unary op e)
  | asRight left op _ _ _ _, e => some (.binary op left.tree e)
  | asLeft _ _ op _ _ right, e => some (.binary op e right.tree)

end Frame

/-- Frames one inside the other, the outermost first. -/
def fillAll : List Frame → List Char → List Char
  | [], text => text
  | frame :: inner, text => frame.fill (fillAll inner text)

def frontAll (frames : List Frame) : List Char :=
  frames.flatMap Frame.front

/-- The tree of nested frames around a text with a tree. -/
def treeAll? : List Frame → Expr → Option Expr
  | [], e => some e
  | frame :: inner, e => do frame.tree? (← treeAll? inner e)

/-- The text in the hole of nested frames stands behind all that they put in front of it. -/
theorem fillAll_eq (frames : List Frame) (text : List Char) :
    fillAll frames text = frontAll frames ++ text ++ frames.reverse.flatMap Frame.back := by
  induction frames with
  | nil => simp [fillAll, frontAll]
  | cons frame inner ih =>
    rw [fillAll, Frame.fill, ih]
    simp [frontAll, List.flatMap_append]

/-! ### What can be filled in -/

/-- A text that is not blank and stays one item where it stands in a list. -/
structure SelfContained (text : List Char) : Prop where
  nonblank : trim text ≠ []
  undivided : Undivided text

theorem trim_ne_nil_of_mem {text : List Char} {c : Char} (mem : c ∈ text)
    (firm : isBlank c = false) : trim text ≠ [] := by
  intro empty
  obtain ⟨trail, trailing, split⟩ := trim_split text
  rw [empty, List.append_nil] at split
  rw [split] at mem
  have blank := ((allBlank_takeWhile text).append trailing) c mem
  rw [firm] at blank
  cases blank

theorem balanced_itemsBefore (before : List Item) : Balanced (itemsBefore before) := by
  induction before with
  | nil => exact balanced_nil
  | cons item later ih =>
    have comma : Balanced [','] := rfl
    exact (Expr.balanced_of_accepted item.accepted).append (comma.append ih)

theorem Behind.balanced_chars (behind : Behind) : Balanced behind.chars := by
  cases behind with
  | nothing => exact balanced_nil
  | further list balanced =>
    have comma : Balanced [','] := rfl
    exact comma.append balanced

/-- The list that a text is an item of. -/
def listAround (before : List Item) (text : List Char) (behind : Behind) : List Char :=
  itemsBefore before ++ text ++ behind.chars

theorem balanced_listAround {text : List Char} (balanced : Balanced text) (before : List Item)
    (behind : Behind) : Balanced (listAround before text behind) :=
  ((balanced_itemsBefore before).append balanced).append behind.balanced_chars

theorem not_comma_of_mem_symbol (op : BinaryOperator) : ∀ c ∈ op.symbol.toList, c ≠ ',' := by
  cases op <;> simp [BinaryOperator.symbol]

theorem not_comma_of_mem_unary (op : UnaryOperator) : ∀ c ∈ op.symbol.toList, c ≠ ',' := by
  cases op <;> simp [UnaryOperator.symbol]

namespace Frame

variable {text : List Char}

theorem fill_array (before : List Item) (behind : Behind) (text : List Char) :
    (array before behind).fill text = '[' :: listAround before text behind ++ [']'] := by
  simp [fill, front, back, listAround]

theorem fill_call {name : List Char} (isName : isFunctionName name = true) (before : List Item)
    (behind : Behind) (text : List Char) : (call name isName before behind).fill text =
      name ++ '(' :: listAround before text behind ++ [')'] := by
  simp [fill, front, back, listAround]

/-- A frame around a self-contained text is one. -/
theorem selfContained (frame : Frame) (inside : SelfContained text) :
    SelfContained (frame.fill text) := by
  have balanced := inside.undivided.balanced
  constructor
  · cases frame with
    | pad lead trail leading trailing =>
      rw [fill, front, back, trim_pad leading trailing]
      exact inside.nonblank
    | array | index => exact @trim_ne_nil_of_mem _ ']' (by simp [fill, back]) (by decide)
    | _ => exact @trim_ne_nil_of_mem _ ')' (by simp [fill, back]) (by decide)
  · have group : Undivided ('(' :: text ++ [')']) := .of_group balanced .round
    have blanks : ∀ {gap : List Char}, AllBlank gap → Undivided gap :=
      fun blank => .of_allBlank blank fun _ => ne_comma_of_isBlank
    have symbol : ∀ op : BinaryOperator, Undivided op.symbol.toList := fun op =>
      .of_unbracketed (Expr.unbracketed_symbol op) (not_comma_of_mem_symbol op)
    cases frame with
    | pad lead trail leading trailing =>
      exact ((blanks leading).append inside.undivided).append (blanks trailing)
    | group => exact group
    | array before behind =>
      rw [fill_array]
      exact .of_group (balanced_listAround balanced before behind) .square
    | call name isName before behind =>
      rw [fill_call, List.append_assoc]
      exact (OutsideAll.of_wordChars (wordChars_of_isFunctionName isName).2
        fun _ => ne_comma_of_isWordChar).append
          (.of_group (balanced_listAround balanced before behind) .round)
    | index items bare =>
      have position : Undivided ('[' :: text ++ [']']) := .of_group balanced .square
      simpa [fill, front, back] using (undivided_of_accepted items.accepted).append position
    | unary op op_ne gap blank =>
      have operator : Undivided op.symbol.toList :=
        .of_unbracketed (Expr.unbracketed_unary op) (not_comma_of_mem_unary op)
      simpa [fill, front, back] using (operator.append (blanks blank)).append group
    | asRight left op firm other gap blank =>
      simpa [fill, front, back] using
        (((undivided_of_accepted left.accepted).append (symbol op)).append
          (blanks blank)).append group
    | asLeft gap blank op firm other right =>
      simpa [fill, front, back] using
        ((group.append (blanks blank)).append (symbol op)).append
          (undivided_of_accepted right.accepted)

end Frame

/-! ### Reading inside a frame -/

/-- A text is read as one inside it: rejected for the same cause, at the place moved by what
is in front, and built from its tree. -/
structure Carries (inner text : List Char) (front : Nat) (build : Expr → Option Expr) : Prop where
  rejected : ∀ cause place, Expr.read inner = reject cause place →
    Expr.read text = reject cause (place + front)
  accepted : ∀ e built, Expr.read inner = .ok e → build e = some built →
    Expr.read text = .ok built

namespace Carries

variable {inner mid text : List Char} {front outer : Nat} {build build' : Expr → Option Expr}

theorem trans (first : Carries inner mid front build) (second : Carries mid text outer build') :
    Carries inner text (outer + front) fun e => (build e).bind build' where
  rejected := by
    intro cause place told
    rw [second.rejected _ _ (first.rejected _ _ told), Nat.add_assoc, Nat.add_comm front]
  accepted := by
    intro e built read built_eq
    obtain ⟨e', made, built_eq⟩ := Option.bind_eq_some_iff.mp built_eq
    exact second.accepted _ _ (first.accepted _ _ read made) built_eq

theorem cast {text' : List Char} {front' : Nat} (carries : Carries inner text front build)
    (same : text = text') (bytes : front = front') : Carries inner text' front' build :=
  same ▸ bytes ▸ carries

/-- A text whose reading is that of one inside it, with an operator around its tree. -/
theorem of_eq {build : Expr → Expr} (same : Expr.read text =
    ((Expr.read inner).mapError (·.shifted front)).map build) :
    Carries inner text front fun e => some (build e) where
  rejected := by
    intro cause place told
    rw [same, told]
    rfl
  accepted := by
    rintro e built read ⟨⟩
    rw [same, read]
    rfl

end Carries

section Lists

variable {text : List Char} {before : List Item} {behind : Behind}

theorem pieces_itemsBefore (before : List Item) (list : List Char) :
    pieces ',' (itemsBefore before ++ list) = before.map (·.chars) ++ pieces ',' list := by
  induction before with
  | nil => rfl
  | cons item later ih =>
    have undivided := undivided_of_accepted item.accepted
    rw [itemsBefore, List.append_assoc, List.cons_append,
      pieces_cut rfl undivided.balanced.depth_eq_zero fun outer => undivided.all _ outer rfl, ih]
    rfl

theorem pieces_listAround (undivided : Undivided text) :
    pieces ',' (listAround before text behind) =
      before.map (·.chars) ++ text :: behind.items := by
  have free : ',' ∉ outside text := fun outer => undivided.all _ outer rfl
  rw [listAround, List.append_assoc, pieces_itemsBefore]
  cases behind with
  | nothing => rw [Behind.chars, List.append_nil, pieces_of_free rfl free, Behind.items]
  | further list _ =>
    rw [Behind.chars, pieces_cut rfl undivided.balanced.depth_eq_zero free, Behind.items]

/-- The items in front of the hole are accepted and move what is behind them. -/
theorem readEach_itemsBefore (before : List Item) (start : Nat) (later : List (List Char)) :
    Expr.readEach start (before.map (·.chars) ++ later) =
      (Expr.readEach (start + byteLength (itemsBefore before)) later).map
        (before.map (·.tree) ++ ·) := by
  induction before generalizing start with
  | nil =>
    rw [List.map_nil, List.nil_append, itemsBefore, byteLength_nil, Nat.add_zero]
    cases Expr.readEach start later <;> rfl
  | cons item before ih =>
    have bytes : start + byteLength item.chars + 1 + byteLength (itemsBefore before) =
        start + byteLength (itemsBefore (item :: before)) := by
      have size : Char.utf8Size ',' = 1 := rfl
      rw [itemsBefore, byteLength_append, byteLength_cons, size]
      omega
    rw [List.map_cons, List.cons_append, Expr.readEach, item.accepted, ih, bytes]
    cases Expr.readEach (start + byteLength (itemsBefore (item :: before))) later <;> rfl

theorem readEach_of_mapM {list : List (List Char)} {es : List Expr}
    (accepted : list.mapM (fun item => (Expr.read item).toOption) = some es) (start : Nat) :
    Expr.readEach start list = .ok es := by
  induction list generalizing es start with
  | nil =>
    cases accepted
    rfl
  | cons item later ih =>
    rw [List.mapM_cons] at accepted
    obtain ⟨e, first, accepted⟩ := Option.bind_eq_some_iff.mp accepted
    obtain ⟨rest, others, accepted⟩ := Option.bind_eq_some_iff.mp accepted
    cases accepted
    have read : Expr.read item = .ok e := by
      cases outcome : Expr.read item with
      | error stop =>
        rw [outcome] at first
        cases first
      | ok e' =>
        rw [outcome] at first
        cases first
        rfl
    rw [Expr.readEach, read, ih others]
    rfl

theorem readList_listAround (inside : SelfContained text) (start : Nat) :
    Expr.readList start (listAround before text behind) = (do
      let e ← (Expr.read text).mapError (·.shifted (start + byteLength (itemsBefore before)))
      let later ← Expr.readEach
        (start + byteLength (itemsBefore before) + byteLength text + 1) behind.items
      return before.map (·.tree) ++ e :: later) := by
  have nonempty : listAround before text behind ≠ [] := by
    intro empty
    obtain ⟨front, -⟩ := List.append_eq_nil_iff.mp empty
    obtain ⟨-, rfl⟩ := List.append_eq_nil_iff.mp front
    exact inside.nonblank rfl
  rw [Expr.readList, if_neg nonempty, pieces_listAround inside.undivided, readEach_itemsBefore,
    Expr.readEach]
  cases (Expr.read text).mapError (·.shifted (start + byteLength (itemsBefore before))) with
  | error stop => rfl
  | ok e =>
    cases Expr.readEach
      (start + byteLength (itemsBefore before) + byteLength text + 1) behind.items <;> rfl

end Lists

section Parts

variable {text : List Char}

theorem carries_pad {lead trail : List Char} (leading : AllBlank lead) (trailing : AllBlank trail)
    (nonblank : trim text ≠ []) : Carries text (lead ++ text ++ trail) (byteLength lead) some := by
  refine .of_eq ?_
  rw [Expr.read_padded leading trailing nonblank]
  cases (Expr.read text).mapError (·.shifted (byteLength lead)) <;> rfl

theorem carries_group (balanced : Balanced text) : Carries text ('(' :: text ++ [')']) 1 some := by
  refine .of_eq ?_
  rw [Expr.read_group_eq balanced, Expr.readGroup]
  cases (Expr.read text).mapError (·.shifted 1) <;> rfl

/-- A text in a parenthesis with blanks around it. -/
theorem carries_spaced {lead trail : List Char} (leading : AllBlank lead)
    (trailing : AllBlank trail) (balanced : Balanced text) :
    Carries text (lead ++ ('(' :: text ++ [')']) ++ trail) (byteLength lead + 1) some :=
  (carries_group balanced).trans
    (carries_pad leading trailing (@trim_ne_nil_of_mem _ '(' (by simp) (by decide)))

theorem carries_array (inside : SelfContained text) (before : List Item) (behind : Behind) :
    Carries text ((Frame.array before behind).fill text)
      (byteLength (Frame.array before behind).front) (Frame.array before behind).tree? := by
  have balanced := balanced_listAround inside.undivided.balanced before behind
  rw [Frame.fill_array]
  constructor
  · intro cause place told
    rw [Expr.read_array_eq balanced, readList_listAround inside, told]
    rfl
  · intro e built read fits
    obtain ⟨later, accepted, fits⟩ := Option.bind_eq_some_iff.mp fits
    cases fits
    rw [Expr.read_array_eq balanced, readList_listAround inside, read,
      readEach_of_mapM accepted]
    rfl

theorem carries_call (inside : SelfContained text) {name : List Char}
    (isName : isFunctionName name = true) (before : List Item) (behind : Behind) :
    Carries text ((Frame.call name isName before behind).fill text)
      (byteLength (Frame.call name isName before behind).front)
      (Frame.call name isName before behind).tree? := by
  have balanced := balanced_listAround inside.undivided.balanced before behind
  have bytes : byteLength (name ++ ['(']) + byteLength (itemsBefore before) =
      byteLength (Frame.call name isName before behind).front := by
    simp only [Frame.front, byteLength_append, byteLength_cons, byteLength_nil]
    omega
  rw [Frame.fill_call, ← bytes]
  constructor
  · intro cause place told
    rw [Expr.read_call_eq isName balanced, Expr.readCall, readList_listAround inside, told]
    rfl
  · intro e built read fits
    obtain ⟨later, accepted, fits⟩ := Option.bind_eq_some_iff.mp fits
    obtain ⟨function, known, fits⟩ := Option.bind_eq_some_iff.mp fits
    dsimp only at fits
    split at fits
    · next count =>
      cases fits
      rw [Expr.read_call_eq isName balanced, Expr.readCall, readList_listAround inside, read,
        readEach_of_mapM accepted, known]
      change (if function.arity.accepts (before.map (·.tree) ++ e :: later).length then _ else _) = _
      rw [if_pos count]
      rfl
    · cases fits

theorem carries_index (balanced : Balanced text) (items : Atom)
    (bare : ∀ c ∈ (trimStart items.chars).head?, c ≠ '~' ∧ c ≠ '!') :
    Carries text ((Frame.index items bare).fill text) (byteLength (Frame.index items bare).front)
      (Frame.index items bare).tree? := by
  -- Blanks in front of the items move the whole; what is behind them is the operand.
  have leading := allBlank_takeWhile items.chars
  have split := List.takeWhile_append_dropWhile (p := isBlank) (l := items.chars)
  have tree : Expr.read (trimStart items.chars) = .ok items.tree := by
    have accepted := items.accepted
    rwa [Expr.read_trimStart, mapError_eq_ok_iff] at accepted
  have unsplit : Unsplit (trimStart items.chars) := by
    have whole := items.unsplit
    rw [← split] at whole
    exact (whole.of_append leading.unbracketed.depth_eq_zero).2
  have nonblank : trim (trimStart items.chars ++ '[' :: text ++ [']']) ≠ [] :=
    @trim_ne_nil_of_mem _ '[' (by simp) (by decide)
  have whole : (Frame.index items bare).fill text = items.chars.takeWhile isBlank ++
      (trimStart items.chars ++ '[' :: text ++ [']']) ++ [] := by
    conv_lhs => rw [Frame.fill, Frame.front, ← split, ← trimStart]
    simp [Frame.back]
  have front : (Frame.index items bare).front = items.chars.takeWhile isBlank ++
      (trimStart items.chars ++ ['[']) := by
    conv_lhs => rw [Frame.front, ← split, ← trimStart]
    simp
  have inner : Carries text (trimStart items.chars ++ '[' :: text ++ [']'])
      (byteLength (trimStart items.chars ++ ['['])) fun e => some (.index items.tree e) := by
    refine .of_eq ?_
    rw [Expr.read_index_eq (Expr.ne_nil_of_accepted tree) (trimStart_head _) unsplit.balanced
      unsplit.all bare balanced, Expr.readIndex, tree]
    rfl
  rw [whole, front, byteLength_append]
  exact inner.trans (carries_pad leading allBlank_nil nonblank)

theorem carries_unary (balanced : Balanced text) {op : UnaryOperator} (op_ne : op ≠ .negate)
    {gap : List Char} (blank : AllBlank gap) :
    Carries text (op.symbol.toList ++ (gap ++ ('(' :: text ++ [')'])))
      (byteLength op.symbol.toList + (byteLength gap + 1)) fun e => some (.unary op e) := by
  have inner := carries_spaced blank allBlank_nil balanced
  rw [List.append_nil] at inner
  have unsplit : Unsplit (gap ++ ('(' :: text ++ [')'])) :=
    (OutsideAll.of_allBlank blank fun _ => isOperatorChar_eq_false_of_isBlank).append
      (.of_group balanced .round)
  refine inner.trans (.of_eq ?_)
  rw [Expr.read_unary_eq op_ne (by simp) _ unsplit.balanced unsplit.all, Expr.readUnary]
  rw [List.getLast?_append_of_ne_nil _ (by simp), List.getLast?_append_of_ne_nil _ (by simp)]
  rintro c ⟨⟩
  decide

theorem unsplit_spaced {lead trail : List Char} (leading : AllBlank lead)
    (trailing : AllBlank trail) (balanced : Balanced text) :
    Unsplit (lead ++ ('(' :: text ++ [')']) ++ trail) :=
  ((OutsideAll.of_allBlank leading fun _ => isOperatorChar_eq_false_of_isBlank).append
    (.of_group balanced .round)).append
      (.of_allBlank trailing fun _ => isOperatorChar_eq_false_of_isBlank)

section Operands

variable (balanced : Balanced text) {op : BinaryOperator} (firm : op.isShift = false)
  (other : op ≠ .times) (atom : Atom) {gap : List Char} (blank : AllBlank gap)

include balanced firm other blank

theorem carries_asRight :
    Carries text (atom.chars ++ op.symbol.toList ++ (gap ++ ('(' :: text ++ [')']) ++ []))
      (byteLength (atom.chars ++ op.symbol.toList) + (byteLength gap + 1))
      fun e => some (.binary op atom.tree e) := by
  refine (carries_spaced blank allBlank_nil balanced).trans (.of_eq ?_)
  rw [read_between firm other atom.unsplit (unsplit_spaced blank allBlank_nil balanced)
    (@trim_ne_nil_of_mem _ '(' (by simp) (by decide)), Expr.readBinary, atom.accepted]
  rfl

theorem carries_asLeft :
    Carries text (([] ++ ('(' :: text ++ [')']) ++ gap) ++ op.symbol.toList ++ atom.chars)
      (byteLength ([] : List Char) + 1) fun e => some (.binary op e atom.tree) := by
  have left : Carries (([] ++ ('(' :: text ++ [')'])) ++ gap)
      (([] ++ ('(' :: text ++ [')']) ++ gap) ++ op.symbol.toList ++ atom.chars) 0
      fun e => some (.binary op e atom.tree) := by
    refine .of_eq ?_
    rw [read_between firm other (unsplit_spaced allBlank_nil blank balanced) atom.unsplit
      (Expr.trim_ne_nil_of_accepted atom.accepted), Expr.readBinary, atom.accepted,
      mapError_shifted_zero]
    cases Expr.read ([] ++ ('(' :: text ++ [')']) ++ gap) <;> rfl
  have inside := (carries_spaced allBlank_nil blank balanced).trans left
  rwa [Nat.zero_add] at inside

end Operands

end Parts

/-- A self-contained text is read inside a frame as it is read alone. -/
theorem Frame.carries (frame : Frame) {text : List Char} (inside : SelfContained text) :
    Carries text (frame.fill text) (byteLength frame.front) frame.tree? := by
  have balanced := inside.undivided.balanced
  have size : Char.utf8Size '(' = 1 := rfl
  cases frame with
  | pad lead trail leading trailing => exact carries_pad leading trailing inside.nonblank
  | group => exact carries_group balanced
  | array before behind => exact carries_array inside before behind
  | call name isName before behind => exact carries_call inside isName before behind
  | index items bare => exact carries_index balanced items bare
  | unary op op_ne gap blank =>
    exact (carries_unary balanced op_ne blank).cast (by simp [fill, front, back])
      (by simp [front, size])
  | asRight left op firm other gap blank =>
    exact (carries_asRight balanced firm other left blank).cast (by simp [fill, front, back])
      (by simp [front, size, Nat.add_assoc])
  | asLeft gap blank op firm other right =>
    exact (carries_asLeft balanced firm other right blank).cast (by simp [fill, front, back])
      (by simp [front, size])

theorem selfContained_fillAll (frames : List Frame) {text : List Char}
    (inside : SelfContained text) : SelfContained (fillAll frames text) := by
  induction frames with
  | nil => exact inside
  | cons frame inner ih => exact frame.selfContained ih

theorem carries_fillAll (frames : List Frame) {text : List Char} (inside : SelfContained text) :
    Carries text (fillAll frames text) (byteLength (frontAll frames)) (treeAll? frames) := by
  induction frames with
  | nil =>
    constructor
    · exact fun _ _ told => told
    · rintro e built read ⟨⟩
      exact read
  | cons frame inner ih =>
    have whole := ih.trans (frame.carries (selfContained_fillAll inner inside))
    rwa [← byteLength_append] at whole

/-- Reading goes through nested frames: what a text is rejected for is what they are rejected
for, at the text's place in them, which is behind all that they put in front of it
(`fillAll_eq`), and its tree goes into theirs. -/
theorem read_fillAll (frames : List Frame) {text : List Char} (nonblank : trim text ≠ [])
    (balanced : Balanced text) (free : ',' ∉ outside text) :
    (∀ cause place, Expr.read text = reject cause place →
      Expr.read (fillAll frames text) = reject cause (place + byteLength (frontAll frames))) ∧
    (∀ e built, Expr.read text = .ok e → treeAll? frames e = some built →
      Expr.read (fillAll frames text) = .ok built) := by
  have undivided : Undivided text := ⟨balanced, fun c outer comma => free (comma ▸ outer)⟩
  have whole := carries_fillAll frames ⟨nonblank, undivided⟩
  exact ⟨whole.rejected, whole.accepted⟩

/-- The sum of a name and the largest of three, the second of which is the hole. -/
def sumFrames : List Frame :=
  [.asRight default .plus rfl (by decide) [' '] allBlank_space,
   .call ['m', 'a', 'x'] rfl [⟨['i'], .argument "i", by cbv⟩] (.further [' ', 'y'] rfl),
   .pad [' '] [] allBlank_space allBlank_nil]

/-- A fault and a name in the same hole. -/
theorem read_fillAll_sum :
    Expr.read "x+ (max(i, #, y))".toList = reject .unparsableToken 11 ∧
    Expr.read "x+ (max(i, z, y))".toList = .ok (.binary .plus (.argument "x")
      (.call .max [.argument "i", .argument "z", .argument "y"])) := by
  have fault : Expr.read ['#'] = reject .unparsableToken 0 := by cbv
  have name : Expr.read ['z'] = .ok (.argument "z") := by cbv
  have tree : treeAll? sumFrames (.argument "z") = some (.binary .plus (.argument "x")
      (.call .max [.argument "i", .argument "z", .argument "y"])) := by cbv
  exact ⟨(read_fillAll sumFrames (by decide) (by decide) (by decide)).1 _ _ fault,
    (read_fillAll sumFrames (by decide) (by decide) (by decide)).2 _ _ name tree⟩

end SelectionFormula
