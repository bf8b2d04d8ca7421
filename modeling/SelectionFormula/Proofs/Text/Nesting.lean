import SelectionFormula.Text.Bracket

/-!
Depth and balance of a text.

`depth` counts a text's opening brackets less its closing ones; `openAfter?` runs
the brackets of a text on a stack. A text is balanced when the stack comes back
empty, which is when the nesting check finds no fault (`firstFault?_eq_none_iff`).

* `openAfter?_append` — a text runs as its parts run one after the other.
* `Balanced.append`, `Balanced.group` — balanced texts stand side by side and
  inside a pair of brackets.
* `Balanced.of_append` — a balanced text cut where no bracket is open leaves two
  balanced texts.
* `mem_outside_iff` — the characters outside all brackets are the unbracketed ones
  with depth zero in front of them.
-/

namespace SelectionFormula.Text

/-- Opening brackets less closing ones. -/
def depth : List Char → Int
  | [] => 0
  | c :: text => nesting c + depth text

@[simp] theorem depth_nil : depth [] = 0 := rfl

@[simp] theorem depth_cons (c : Char) (text : List Char) :
    depth (c :: text) = nesting c + depth text := rfl

@[simp] theorem depth_append (s t : List Char) : depth (s ++ t) = depth s + depth t := by
  induction s with
  | nil => simp
  | cons c s ih => simp [ih, Int.add_assoc]

/-- The brackets open behind a text, innermost first, when `pending` are open in
front of it; none when a closer does not match. -/
def openAfter? : List Bracket → List Char → Option (List Bracket)
  | pending, [] => some pending
  | pending, c :: text =>
    match BracketMark.ofChar? c, pending with
    | none, pending => openAfter? pending text
    | some (.opening bracket), pending => openAfter? (bracket :: pending) text
    | some (.closing bracket), innermost :: outer =>
      if innermost = bracket then openAfter? outer text else none
    | some (.closing _), [] => none

/-- Every bracket is closed by its own kind, in order. -/
def Balanced (text : List Char) : Prop :=
  openAfter? [] text = some []

instance (text : List Char) : Decidable (Balanced text) := by
  unfold Balanced; infer_instance

theorem openAfter?_append (pending : List Bracket) (s t : List Char) :
    openAfter? pending (s ++ t) = (openAfter? pending s).bind (openAfter? · t) := by
  fun_induction openAfter? pending s with
  | case1 => simp
  | case2 c s pending mark ih => simpa [openAfter?, mark] using ih
  | case3 c s pending bracket mark ih => simpa [openAfter?, mark] using ih
  | case4 c s bracket outer mark ih => simpa [openAfter?, mark] using ih
  | case5 c s bracket innermost outer mark other => simp [openAfter?, mark, other]
  | case6 c s bracket mark => simp [openAfter?, mark]

/-- Brackets that stay open below a text do not change how it runs. -/
theorem openAfter?_below {pending after : List Bracket} {text : List Char}
    (run : openAfter? pending text = some after) (below : List Bracket) :
    openAfter? (pending ++ below) text = some (after ++ below) := by
  fun_induction openAfter? pending text with
  | case1 => simp_all [openAfter?]
  | case2 c s pending mark ih => simpa [openAfter?, mark] using ih run
  | case3 c s pending bracket mark ih => simpa [openAfter?, mark] using ih run
  | case4 c s bracket outer mark ih => simpa [openAfter?, mark] using ih run
  | case5 c s bracket innermost outer mark other => simp at run
  | case6 c s bracket mark => simp at run

/-- The stack is as high as the depth says. -/
theorem length_openAfter? {pending after : List Bracket} {text : List Char}
    (run : openAfter? pending text = some after) :
    (after.length : Int) = pending.length + depth text := by
  fun_induction openAfter? pending text with
  | case1 => simp_all
  | case2 c s pending mark ih => simp [nesting, mark, ih run]
  | case3 c s pending bracket mark ih =>
    have := ih run
    simp only [depth_cons, nesting, mark, List.length_cons] at this ⊢
    omega
  | case4 c s bracket outer mark ih =>
    have := ih run
    simp only [depth_cons, nesting, mark, List.length_cons] at this ⊢
    omega
  | case5 c s bracket innermost outer mark other => simp at run
  | case6 c s bracket mark => simp at run

/-! ### Balanced texts -/

theorem balanced_nil : Balanced [] := rfl

theorem Balanced.depth_eq_zero {text : List Char} (balanced : Balanced text) : depth text = 0 := by
  have := length_openAfter? balanced
  simpa using this.symm

theorem Balanced.append {s t : List Char} (hs : Balanced s) (ht : Balanced t) :
    Balanced (s ++ t) := by
  rw [Balanced, openAfter?_append, hs]
  exact ht

/-- In a balanced text no part at the front closes more than it opens. -/
theorem Balanced.depth_front_nonneg {s t : List Char} (balanced : Balanced (s ++ t)) :
    0 ≤ depth s := by
  rw [Balanced, openAfter?_append] at balanced
  obtain ⟨after, run, -⟩ := Option.bind_eq_some_iff.mp balanced
  have := length_openAfter? run
  simp only [List.length_nil] at this
  omega

theorem Balanced.depth_back_nonpos {s t : List Char} (balanced : Balanced (s ++ t)) :
    depth t ≤ 0 := by
  have front := balanced.depth_front_nonneg
  have all := balanced.depth_eq_zero
  rw [depth_append] at all
  omega

/-- A balanced text cut where no bracket is open leaves two balanced texts. -/
theorem Balanced.of_append {s t : List Char} (balanced : Balanced (s ++ t))
    (closed : depth s = 0) : Balanced s ∧ Balanced t := by
  rw [Balanced, openAfter?_append] at balanced
  obtain ⟨after, run, rest⟩ := Option.bind_eq_some_iff.mp balanced
  have height := length_openAfter? run
  have empty : after = [] := by
    rw [← List.length_eq_zero_iff]
    simp only [List.length_nil, closed] at height
    omega
  subst empty
  exact ⟨run, rest⟩

/-- A text without brackets. -/
def Unbracketed (text : List Char) : Prop :=
  ∀ c ∈ text, BracketMark.ofChar? c = none

theorem Unbracketed.tail {c : Char} {text : List Char} (unbracketed : Unbracketed (c :: text)) :
    Unbracketed text :=
  fun d mem => unbracketed d (List.mem_cons_of_mem _ mem)

theorem Unbracketed.balanced {text : List Char} (unbracketed : Unbracketed text) :
    Balanced text := by
  induction text with
  | nil => rfl
  | cons c text ih =>
    have mark := unbracketed c List.mem_cons_self
    simpa [Balanced, openAfter?, mark] using ih unbracketed.tail

theorem Unbracketed.depth_eq_zero {text : List Char} (unbracketed : Unbracketed text) :
    depth text = 0 :=
  unbracketed.balanced.depth_eq_zero

/-- The characters of a kind of bracket. -/
def Bracket.opener : Bracket → Char
  | .round => '('
  | .square => '['

def Bracket.closer : Bracket → Char
  | .round => ')'
  | .square => ']'

@[simp] theorem ofChar?_opener (bracket : Bracket) :
    BracketMark.ofChar? bracket.opener = some (.opening bracket) := by
  cases bracket <;> rfl

@[simp] theorem ofChar?_closer (bracket : Bracket) :
    BracketMark.ofChar? bracket.closer = some (.closing bracket) := by
  cases bracket <;> rfl

@[simp] theorem nesting_opener (bracket : Bracket) : nesting bracket.opener = 1 := by
  cases bracket <;> rfl

@[simp] theorem nesting_closer (bracket : Bracket) : nesting bracket.closer = -1 := by
  cases bracket <;> rfl

/-- A balanced text stays balanced inside a pair of brackets. -/
theorem Balanced.group {inner : List Char} (balanced : Balanced inner) (bracket : Bracket) :
    Balanced (bracket.opener :: inner ++ [bracket.closer]) := by
  have run : openAfter? [bracket] inner = some [bracket] := openAfter?_below balanced [bracket]
  simp [Balanced, openAfter?_append, openAfter?, run]

/-! ### The nesting check -/

theorem faultFrom?_eq_none_iff (pending : List (Bracket × Nat)) (offset : Nat) (text : List Char) :
    faultFrom? pending offset text = none ↔ openAfter? (pending.map (·.1)) text = some [] := by
  fun_induction faultFrom? pending offset text with
  | case1 pending offset => simp [openAfter?]
  | case2 pending offset c text mark ih => simpa [openAfter?, mark] using ih
  | case3 pending offset c text bracket mark ih => simpa [openAfter?, mark] using ih
  | case4 offset c text bracket start outer mark ih => simpa [openAfter?, mark] using ih
  | case5 offset c text bracket mark innermost start outer other =>
    simp [openAfter?, mark, other]
  | case6 offset c text bracket mark => simp [openAfter?, mark]

/-- The nesting check finds no fault exactly in balanced texts. -/
theorem firstFault?_eq_none_iff (text : List Char) : firstFault? text = none ↔ Balanced text :=
  faultFrom?_eq_none_iff [] 0 text

/-! ### Outside all brackets -/

/-- The characters that stand where a depth of zero is reached, brackets left out. -/
def outsideFrom : Int → List Char → List Char
  | _, [] => []
  | before, c :: text =>
    if before = 0 ∧ nesting c = 0 then c :: outsideFrom (before + nesting c) text
    else outsideFrom (before + nesting c) text

/-- The characters outside all brackets. -/
def outside (text : List Char) : List Char :=
  outsideFrom 0 text

theorem mem_outsideFrom_iff {before : Int} {d : Char} {text : List Char} :
    d ∈ outsideFrom before text ↔
      ∃ s t, text = s ++ d :: t ∧ before + depth s = 0 ∧ nesting d = 0 := by
  induction text generalizing before with
  | nil => simp [outsideFrom]
  | cons c text ih =>
    have later : d ∈ outsideFrom (before + nesting c) text ↔
        ∃ s t, c :: text = c :: s ++ d :: t ∧ before + depth (c :: s) = 0 ∧ nesting d = 0 := by
      simp [ih, Int.add_assoc]
    have member : d ∈ outsideFrom before (c :: text) ↔
        (d = c ∧ before = 0 ∧ nesting c = 0) ∨ d ∈ outsideFrom (before + nesting c) text := by
      rw [outsideFrom]
      split
      · next at_zero => simp [at_zero]
      · next nested =>
        exact ⟨.inr, fun h => h.resolve_left fun ⟨_, at_zero⟩ => nested at_zero⟩
    rw [member, later]
    constructor
    · rintro (⟨rfl, zero, plain⟩ | ⟨s, t, split, zero, plain⟩)
      · exact ⟨[], text, rfl, by simpa using zero, plain⟩
      · exact ⟨c :: s, t, split, zero, plain⟩
    · rintro ⟨s, t, split, zero, plain⟩
      cases s with
      | nil =>
        obtain ⟨rfl, rfl⟩ := List.cons.inj split
        exact .inl ⟨rfl, by simpa using zero, plain⟩
      | cons e s =>
        obtain ⟨rfl, -⟩ := List.cons.inj split
        exact .inr ⟨s, t, split, zero, plain⟩

theorem mem_outside_iff {d : Char} {text : List Char} :
    d ∈ outside text ↔ ∃ s t, text = s ++ d :: t ∧ depth s = 0 ∧ nesting d = 0 := by
  simp [outside, mem_outsideFrom_iff]

theorem outside_subset {d : Char} {text : List Char} (mem : d ∈ outside text) : d ∈ text := by
  obtain ⟨s, t, rfl, -⟩ := mem_outside_iff.mp mem
  simp

theorem outsideFrom_append (before : Int) (s t : List Char) :
    outsideFrom before (s ++ t) = outsideFrom before s ++ outsideFrom (before + depth s) t := by
  induction s generalizing before with
  | nil => simp [outsideFrom]
  | cons c s ih =>
    rw [List.cons_append, outsideFrom, outsideFrom, ih, depth_cons, Int.add_assoc]
    split <;> rfl

@[simp] theorem outside_nil : outside [] = [] := rfl

theorem outside_cons {c : Char} (plain : nesting c = 0) (text : List Char) :
    outside (c :: text) = c :: outside text := by
  rw [outside, outsideFrom, if_pos ⟨rfl, plain⟩, plain]
  rfl

theorem outside_append {s : List Char} (closed : depth s = 0) (t : List Char) :
    outside (s ++ t) = outside s ++ outside t := by
  rw [outside, outsideFrom_append, closed]
  rfl

theorem Unbracketed.outside_eq {text : List Char} (unbracketed : Unbracketed text) :
    outside text = text := by
  induction text with
  | nil => rfl
  | cons c text ih =>
    have plain : nesting c = 0 := by simp [nesting, unbracketed c List.mem_cons_self]
    have rest := ih unbracketed.tail
    rw [outside] at rest ⊢
    simp [outsideFrom, plain, rest]

/-- Nothing inside a pair of brackets is outside. -/
theorem Balanced.outside_group {inner : List Char} (balanced : Balanced inner)
    (bracket : Bracket) : outside (bracket.opener :: inner ++ [bracket.closer]) = [] := by
  rw [List.eq_nil_iff_forall_not_mem]
  intro d mem
  obtain ⟨s, t, split, zero, plain⟩ := mem_outside_iff.mp mem
  cases s with
  | nil =>
    obtain ⟨rfl, -⟩ := List.cons.inj split
    simp at plain
  | cons c s =>
    obtain ⟨rfl, -⟩ := List.cons.inj split
    rcases List.append_eq_append_iff.mp (List.cons.inj split).2 with ⟨u, rfl, close⟩ | ⟨u, rfl, -⟩
    · rcases List.append_eq_singleton_iff.mp close.symm with ⟨rfl, rest⟩ | ⟨rfl, rest⟩
      · obtain ⟨rfl, -⟩ := List.cons.inj rest
        simp at plain
      · simp at rest
    · have := balanced.depth_front_nonneg
      simp only [depth_cons, nesting_opener] at zero
      omega

end SelectionFormula.Text
