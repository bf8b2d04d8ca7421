import Mathlib.Data.List.Infix
import SelectionFormula.Proofs.Reading.Acceptance

/-!
Precedence and grouping in chains of operators.

A chain is operands with operators between them. `chainTree` groups it by the
operators alone: the loosest one that occurs splits the chain at its last
occurrence, and `*` is passed over while a `**` stands behind the last of it.
Reading the characters of a chain gives that tree (`Chain.read_chars`), whatever
its operands are and however long it is.

* `lastOccurrence?_chain` — a symbol that is part of no operator of a chain does
  not occur in the chain outside brackets.
* `absent_of_looser`, `passes_times` — the levels in front of the one that splits
  a chain do not apply.
-/

namespace SelectionFormula

open Text

/-- An accepted text with no operator between operands outside its brackets. -/
structure Atom where
  chars : List Char
  tree : Expr
  accepted : Expr.read chars = .ok tree
  plain : ∀ c ∈ outside chars, isOperatorChar c = false

instance : Inhabited Atom where
  default :=
    { chars := ['x']
      tree := .argument "x"
      accepted := by cbv
      plain := by simp [outside, outsideFrom, isOperatorChar] }

/-- An operator of a chain and the operand behind it. -/
structure Link where
  op : BinaryOperator
  firm : op.isShift = false
  atom : Atom

structure Chain where
  first : Atom
  links : List Link

/-- The characters of the operators and operands behind the first one. -/
def linkChars : List Link → List Char
  | [] => []
  | link :: later => link.op.symbol.toList ++ (link.atom.chars ++ linkChars later)

def Chain.chars (chain : Chain) : List Char :=
  chain.first.chars ++ linkChars chain.links

/-! ### Grouping by operators alone -/

/-- The operators of chains, loosest first. -/
def precedence : List BinaryOperator :=
  [.or, .and, .bitOr, .bitXor, .bitAnd, .equal, .atMost, .atLeast, .below, .above, .plus, .minus,
   .times, .divide, .remainder, .power]

/-- The links in front of the last one with an operator, that link, and those behind. -/
def splitLast? (op : BinaryOperator) : List Link → Option (List Link × Link × List Link)
  | [] => none
  | link :: later =>
    match splitLast? op later with
    | some (before, last, after) => some (link :: before, last, after)
    | none => if link.op = op then some ([], link, later) else none

/-- Where an operator splits a chain: `*` does not with a `**` behind the last of it. -/
def splitAt? (links : List Link) (op : BinaryOperator) : Option (List Link × Link × List Link) :=
  (splitLast? op links).filter fun (_, _, after) =>
    !(op == .times && after.any (·.op == .power))

/-- Where the loosest operator that does so splits a chain. -/
def loosest? (links : List Link) : Option (List Link × Link × List Link) :=
  precedence.findSome? (splitAt? links)

section Splitting

variable {op : BinaryOperator} {links before after : List Link} {link : Link}

theorem splitLast?_eq_none_iff : splitLast? op links = none ↔ ∀ link ∈ links, link.op ≠ op := by
  induction links with
  | nil => simp [splitLast?]
  | cons link later ih =>
    rw [splitLast?]
    cases behind : splitLast? op later with
    | some parts =>
      rw [behind] at ih
      have : ¬ ∀ link ∈ later, link.op ≠ op := fun none => nomatch ih.mpr none
      simp only [List.forall_mem_cons, this, and_false, reduceCtorEq]
    | none =>
      dsimp only
      rw [List.forall_mem_cons]
      split
      · next same => exact ⟨nofun, fun none => absurd same none.1⟩
      · next other => exact ⟨fun _ => ⟨other, ih.mp behind⟩, fun _ => rfl⟩

theorem exists_of_splitLast? (found : splitLast? op links = some (before, link, after)) :
    links = before ++ link :: after ∧ link.op = op ∧ ∀ later ∈ after, later.op ≠ op := by
  induction links generalizing before with
  | nil => cases found
  | cons head later ih =>
    rw [splitLast?] at found
    cases behind : splitLast? op later with
    | some parts =>
      obtain ⟨b, l, a⟩ := parts
      rw [behind] at found
      cases found
      obtain ⟨rfl, rest⟩ := ih behind
      exact ⟨rfl, rest⟩
    | none =>
      rw [behind] at found
      dsimp only at found
      split at found
      · next same =>
        cases found
        exact ⟨rfl, same, splitLast?_eq_none_iff.mp behind⟩
      · cases found

theorem splitAt?_eq_some_iff :
    splitAt? links op = some (before, link, after) ↔
      splitLast? op links = some (before, link, after) ∧
        ¬ (op = .times ∧ ∃ later ∈ after, later.op = .power) := by
  simp [splitAt?, Option.filter_eq_some_iff, imp_iff_not_or]

/-- An operator that splits no chain does not occur, or it is a `*` with a `**` behind. -/
theorem splitAt?_eq_none (none : splitAt? links op = none) :
    (∀ link ∈ links, link.op ≠ op) ∨ op = .times ∧ ∃ before link after,
      links = before ++ link :: after ∧ (∀ later ∈ after, later.op ≠ .times) ∧
      ∃ later ∈ after, later.op = .power := by
  cases last : splitLast? op links with
  | none => exact .inl (splitLast?_eq_none_iff.mp last)
  | some parts =>
    obtain ⟨before, link, after⟩ := parts
    by_cases passed : op = .times ∧ ∃ later ∈ after, later.op = .power
    · obtain ⟨split, -, later⟩ := exists_of_splitLast? last
      exact .inr ⟨passed.1, before, link, after, split, passed.1 ▸ later, passed.2⟩
    · exact nomatch none.symm.trans (splitAt?_eq_some_iff.mpr ⟨last, passed⟩)

/-- The loosest operator splits a chain into two, with none of it behind the split. -/
theorem exists_of_loosest? (found : loosest? links = some (before, link, after)) :
    links = before ++ link :: after ∧ (∀ later ∈ after, later.op ≠ link.op) ∧
      (link.op = .times → ∀ later ∈ after, later.op ≠ .power) ∧
      ∀ op ∈ precedence.takeWhile (· != link.op), splitAt? links op = none := by
  obtain ⟨front, op, back, order, here, none⟩ := List.findSome?_eq_some_iff.mp found
  obtain ⟨last, kept⟩ := splitAt?_eq_some_iff.mp here
  obtain ⟨split, rfl, later⟩ := exists_of_splitLast? last
  refine ⟨split, later, ?_, ?_⟩
  · intro times later mem power
    exact kept ⟨times, later, mem, power⟩
  · intro op mem
    rw [order, List.takeWhile_append_of_pos, List.takeWhile_cons_of_neg (by simp),
      List.append_nil] at mem
    · exact none op mem
    · intro other mem
      rw [bne_iff_ne]
      rintro rfl
      exact nomatch (none _ mem).symm.trans here

theorem mem_precedence (firm : op.isShift = false) : op ∈ precedence := by
  cases op <;> first | decide | cases firm

/-- Some operator splits a chain of more than one operand. -/
theorem links_eq_nil_of_loosest? (none : loosest? links = none) : links = [] := by
  have unsplit : ∀ op ∈ precedence, splitAt? links op = Option.none :=
    List.findSome?_eq_none_iff.mp none
  cases links with
  | nil => rfl
  | cons link later =>
    exfalso
    have power : ∀ l ∈ link :: later, l.op ≠ .power := by
      rcases splitAt?_eq_none (unsplit .power (by decide)) with absent | ⟨same, -⟩
      · exact absent
      · cases same
    rcases splitAt?_eq_none (unsplit link.op (mem_precedence link.firm)) with
      absent | ⟨-, before, last, after, split, -, l, mem, same⟩
    · exact absent link List.mem_cons_self rfl
    · exact power l (by rw [split]; simp [mem]) same

end Splitting

/-- The tree of a chain: split where the loosest operator does, one operand alone its own. -/
def chainTree (first : Atom) (links : List Link) : Expr :=
  match _split : loosest? links with
  | none => first.tree
  | some (before, link, after) =>
    .binary link.op (chainTree first before) (chainTree link.atom after)
termination_by links.length
decreasing_by
  all_goals
    rw [(exists_of_loosest? _split).1, List.length_append, List.length_cons]
    omega

theorem chainTree_nil (first : Atom) : chainTree first [] = first.tree := by
  rw [chainTree]
  rfl

/-- Two operands are grouped by the operator between them. -/
theorem chainTree_singleton (first : Atom) (link : Link) :
    chainTree first [link] = .binary link.op first.tree link.atom.tree := by
  rw [chainTree]
  split
  · next none => exact nomatch links_eq_nil_of_loosest? none
  · next before last after found =>
    rcases List.append_eq_singleton_iff.mp (exists_of_loosest? found).1.symm with
      ⟨rfl, single⟩ | ⟨-, empty⟩
    · obtain ⟨rfl, rfl⟩ := List.cons.inj single
      rw [chainTree_nil, chainTree_nil]
    · cases empty

def Chain.tree (chain : Chain) : Expr :=
  chainTree chain.first chain.links

/-! ### Symbols between operands -/

section Symbols

variable {token s t : List Char}

/-- A symbol that goes on from one text to the next needs an operator's character there. -/
theorem not_isPrefix_append (operator : ∀ c ∈ token, isOperatorChar c = true)
    (head : ∀ c ∈ t.head?, isOperatorChar c = false) (absent : ¬ token <+: s) :
    ¬ token <+: s ++ t := by
  intro front
  rcases isPrefix_append_cases front with inside | ⟨c, rest, rfl, start⟩
  · exact absent inside
  · exact nomatch (head c start).symm.trans (operator c (by simp))

/-- A symbol that is no part of a text does not occur where that text is put in front
of an operand. -/
theorem lastOccurrence?_append_of_not_isInfix (nonempty : token ≠ [])
    (operator : ∀ c ∈ token, isOperatorChar c = true)
    (head : ∀ c ∈ t.head?, isOperatorChar c = false) (absent : ¬ token <:+: s)
    (behind : lastOccurrence? token t = none) : lastOccurrence? token (s ++ t) = none := by
  induction s with
  | nil => exact behind
  | cons c s ih =>
    rw [List.cons_append, lastOccurrence?_cons nonempty, ih ?_]
    · rw [Option.map_none, Option.none_or, if_neg]
      rintro ⟨-, front⟩
      exact not_isPrefix_append operator head (fun front => absent front.isInfix) front
    · exact fun inside => absent (inside.trans (List.suffix_cons c s).isInfix)

/-- An operand does not begin with an operator's character. -/
theorem Atom.head (atom : Atom) (behind : List Char) :
    ∀ c ∈ (atom.chars ++ behind).head?, isOperatorChar c = false := by
  intro c head
  obtain ⟨d, rest, split⟩ := List.exists_cons_of_ne_nil (Expr.ne_nil_of_accepted atom.accepted)
  rw [split] at head
  cases Option.some.inj head
  by_contra operator
  rw [Bool.not_eq_false] at operator
  have outer : c ∈ outside atom.chars :=
    mem_outside_iff.mpr ⟨[], rest, split, rfl, nesting_of_isOperatorChar operator⟩
  rw [atom.plain c outer] at operator
  cases operator

theorem linkChars_append (before after : List Link) :
    linkChars (before ++ after) = linkChars before ++ linkChars after := by
  induction before with
  | nil => rfl
  | cons link before ih => simp [linkChars, ih]

theorem balanced_linkChars (links : List Link) : Balanced (linkChars links) := by
  induction links with
  | nil => exact balanced_nil
  | cons link later ih =>
    have operand := Expr.balanced_of_accepted link.atom.accepted
    exact (Expr.unbracketed_symbol link.op).balanced.append (operand.append ih)

/-- A symbol that is part of no operator of a chain does not occur outside brackets. -/
theorem lastOccurrence?_chain (nonempty : token ≠ [])
    (operator : ∀ c ∈ token, isOperatorChar c = true) (first : Atom) {links : List Link}
    (absent : ∀ link ∈ links, ¬ token <:+: link.op.symbol.toList) :
    lastOccurrence? token (first.chars ++ linkChars links) = none := by
  have operand : ∀ (atom : Atom) {t : List Char}, Balanced t →
      lastOccurrence? token t = none → lastOccurrence? token (atom.chars ++ t) = none := by
    intro atom t balanced behind
    obtain ⟨c, rest, rfl⟩ := List.exists_cons_of_ne_nil nonempty
    have head := operator c List.mem_cons_self
    rw [lastOccurrence?_append_of_outside (nesting_of_isOperatorChar head)
      (Expr.balanced_of_accepted atom.accepted).depth_eq_zero _ balanced.depth_eq_zero, behind,
      Option.map_none]
    intro outer
    rw [atom.plain c outer] at head
    cases head
  refine operand first (balanced_linkChars links) ?_
  induction links with
  | nil => rfl
  | cons link later ih =>
    refine lastOccurrence?_append_of_not_isInfix nonempty operator (link.atom.head _)
      (absent link List.mem_cons_self) ?_
    exact operand link.atom (balanced_linkChars later)
      (ih fun l mem => absent l (List.mem_cons_of_mem link mem))

end Symbols

/-! ### The levels in front of the one that splits a chain -/

section Levels

variable {op : BinaryOperator} {first : Atom} {links before after : List Link} {link : Link}

/-- Where one symbol is part of another, the longer one is looser; `*` and `**` are the
exception. -/
theorem looser_of_isInfix {inner outer : BinaryOperator}
    (inside : inner.symbol.toList <:+: outer.symbol.toList) (firm : outer.isShift = false) :
    inner.isShift = false ∧ (outer = inner ∨
      outer ≠ .times ∧ outer ∈ precedence.takeWhile (· != inner) ∨
      inner = .times ∧ outer = .power) := by
  revert inside firm
  cases inner <;> cases outer <;> decide

theorem looser_level {inner : BinaryOperator}
    (mem : Level.binary inner ∈ (Level.binary op).looser) (firm : op.isShift = false) :
    inner.isShift = true ∨ inner ∈ precedence.takeWhile (· != op) := by
  revert mem firm
  cases inner <;> cases op <;> decide

theorem takeWhile_ne_trans {α : Type} [DecidableEq α] {a b c : α} {xs : List α}
    (hb : b ∈ xs.takeWhile (· != a)) (hc : c ∈ xs.takeWhile (· != b)) :
    c ∈ xs.takeWhile (· != a) := by
  induction xs with
  | nil => cases hb
  | cons x xs ih =>
    by_cases front : x = a
    · rw [List.takeWhile_cons_of_neg (by simp [front])] at hb
      cases hb
    by_cases here : x = b
    · rw [List.takeWhile_cons_of_neg (by simp [here])] at hc
      cases hc
    rw [List.takeWhile_cons_of_pos (by simp [front])] at hb ⊢
    rw [List.takeWhile_cons_of_pos (by simp [here])] at hc
    rcases List.mem_cons.mp hc with rfl | hc
    · exact List.mem_cons_self
    · rcases List.mem_cons.mp hb with rfl | hb
      · exact absurd rfl here
      · exact List.mem_cons_of_mem x (ih hb hc)

/-- An operator's symbol is part of none in a chain where it does not stand and no looser
operator splits. -/
theorem absent_of_looser {part : List Link} (subset : part ⊆ links)
    (unsplit : ∀ looser ∈ precedence.takeWhile (· != op), splitAt? links looser = none)
    (absent : ∀ link ∈ part, link.op ≠ op)
    (power : op = .times → ∀ link ∈ part, link.op ≠ .power) :
    ∀ link ∈ part, ¬ op.symbol.toList <:+: link.op.symbol.toList := by
  intro link mem inside
  rcases (looser_of_isInfix inside link.firm).2 with same | ⟨other, looser⟩ | ⟨times, same⟩
  · exact absent link mem same
  · rcases splitAt?_eq_none (unsplit link.op looser) with none | ⟨times, -⟩
    · exact none link (subset mem) rfl
    · exact other times
  · exact power times link mem same

theorem star_of_isInfix {op : BinaryOperator} (inside : ['*'] <:+: op.symbol.toList) :
    op = .times ∨ op = .power := by
  revert inside
  cases op <;> decide

/-- Behind the last `**` of a chain that `*` does not split there is no `*`. -/
theorem times_absent_behind (unsplit : splitAt? (before ++ link :: after) .times = none)
    (last : ∀ later ∈ after, later.op ≠ .power) : ∀ later ∈ after, later.op ≠ .times := by
  rcases splitAt?_eq_none unsplit with absent | ⟨-, b, l, a, split, absent, p, mem, power⟩
  · exact fun later mem => absent later (by simp [mem])
  rcases List.append_eq_append_iff.mp split with ⟨w, -, tail⟩ | ⟨w, -, tail⟩
  · have inside : p ∈ after := by
      cases w with
      | nil =>
        obtain ⟨-, rfl⟩ := List.cons.inj tail
        exact mem
      | cons _ w =>
        obtain ⟨-, rfl⟩ := List.cons.inj tail
        simp [mem]
    exact absurd power (last p inside)
  · cases w with
    | nil =>
      obtain ⟨-, rfl⟩ := List.cons.inj tail
      exact absent
    | cons _ w =>
      obtain ⟨-, rfl⟩ := List.cons.inj tail
      exact fun later mem => absent later (by simp [mem])

/-- The level of `*` does not apply to a chain that `*` does not split. -/
theorem passes_times (first : Atom) (unsplit : splitAt? links .times = none) :
    Expr.Passes (trim (first.chars ++ linkChars links)) (.binary .times) := by
  by_cases powers : ∀ link ∈ links, link.op ≠ .power
  · have absent : ∀ link ∈ links, link.op ≠ .times := by
      rcases splitAt?_eq_none unsplit with absent | ⟨-, before, link, after, rfl, -, l, mem, same⟩
      · exact absent
      · exact absurd same (powers l (by simp [mem]))
    have none : lastOccurrence? ['*'] (first.chars ++ linkChars links) = none := by
      refine lastOccurrence?_chain (by simp) (by simp [isOperatorChar]) first ?_
      intro link mem inside
      rcases star_of_isInfix inside with same | same
      · exact absent link mem same
      · exact powers link mem same
    exact @Expr.passes_binary_of_absent _ .times none
  · -- The last `*` of the text is in the last `**`: no `*` of the chain stands behind it.
    cases last : splitLast? .power links with
    | none => exact absurd (splitLast?_eq_none_iff.mp last) powers
    | some parts =>
      obtain ⟨before, link, after⟩ := parts
      obtain ⟨rfl, same, others⟩ := exists_of_splitLast? last
      have times := times_absent_behind unsplit others
      have right : lastOccurrence? ['*'] (link.atom.chars ++ linkChars after) = none := by
        refine lastOccurrence?_chain (by simp) (by simp [isOperatorChar]) link.atom ?_
        intro later mem inside
        rcases star_of_isInfix inside with same | same
        · exact times later mem same
        · exact others later mem same
      have closed := ((Expr.balanced_of_accepted link.atom.accepted).append
        (balanced_linkChars after)).depth_eq_zero
      have cut : first.chars ++ linkChars (before ++ link :: after) =
          first.chars ++ linkChars before ++ ['*', '*'] ++
            (link.atom.chars ++ linkChars after) := by
        rw [linkChars_append, linkChars, same]
        simp [BinaryOperator.symbol]
      rw [cut]
      exact Expr.passes_times_of_power right closed

theorem passes_conditional (first : Atom) (links : List Link) :
    Expr.Passes (trim (first.chars ++ linkChars links)) .conditional := by
  have absent : ∀ c ∈ ['?', ':'],
      lastOccurrence? [c] (first.chars ++ linkChars links) = none := by
    intro c mem
    refine lastOccurrence?_chain (by simp) ?_ first ?_
    · revert c
      simp [isOperatorChar]
    · intro link _
      rw [List.singleton_infix_iff]
      revert c
      cases link.op <;> simp [BinaryOperator.symbol]
  exact Expr.passes_conditional_of_absent (absent '?' (by simp)) (absent ':' (by simp))

/-- The levels in front of the operator that splits a chain do not apply. -/
theorem passes_of_loosest? (first : Atom) (found : loosest? links = some (before, link, after)) :
    ∀ level ∈ (Level.binary link.op).looser,
      Expr.Passes (trim (first.chars ++ linkChars links)) level := by
  obtain ⟨-, -, -, unsplit⟩ := exists_of_loosest? found
  intro level mem
  cases level with
  | conditional => exact passes_conditional first links
  | unary op =>
    exfalso
    revert mem
    generalize link.op = outer
    cases op <;> cases outer <;> decide
  | binary inner =>
    by_cases shift : inner.isShift = true
    · refine Expr.passes_binary_of_absent
        (lastOccurrence?_chain inner.symbol_ne_nil (isOperatorChar_symbol inner) first ?_)
      intro l _ inside
      exact nomatch shift.symm.trans (looser_of_isInfix inside l.firm).1
    have earlier := (looser_level mem link.firm).resolve_left shift
    by_cases times : inner = .times
    · exact times ▸ passes_times first (times ▸ unsplit inner earlier)
    · refine Expr.passes_binary_of_absent
        (lastOccurrence?_chain inner.symbol_ne_nil (isOperatorChar_symbol inner) first ?_)
      refine absent_of_looser (List.Subset.refl links)
        (fun looser before => unsplit looser (takeWhile_ne_trans earlier before)) ?_
        (fun same => absurd same times)
      rcases splitAt?_eq_none (unsplit inner earlier) with absent | ⟨same, -⟩
      · exact absent
      · exact absurd same times

end Levels

/-! ### Reading a chain -/

/-- Reading the characters of a chain groups it by its operators alone. -/
theorem read_linkChars (first : Atom) (links : List Link) :
    Expr.read (first.chars ++ linkChars links) = .ok (chainTree first links) := by
  induction size : links.length using Nat.strongRecOn generalizing first links with
  | ind n ih =>
    rw [chainTree]
    split
    · next none =>
      rw [links_eq_nil_of_loosest? none, linkChars, List.append_nil]
      exact first.accepted
    · next before link after found =>
      have passes := passes_of_loosest? first found
      obtain ⟨split, others, power, unsplit⟩ := exists_of_loosest? found
      have lengths := congrArg List.length split
      rw [List.length_append, List.length_cons] at lengths
      have left := ih before.length (by omega) first before rfl
      have right := ih after.length (by omega) link.atom after rfl
      have last : lastOccurrence? link.op.symbol.toList
          (link.op.symbol.toList.tail ++ (link.atom.chars ++ linkChars after)) = none := by
        refine lastOccurrence?_append_of_not_isInfix link.op.symbol_ne_nil
          (isOperatorChar_symbol link.op) (link.atom.head _) ?_ ?_
        · intro inside
          have := inside.length_le
          have := List.length_pos_iff.mpr link.op.symbol_ne_nil
          rw [List.length_tail] at *
          omega
        · refine lastOccurrence?_chain link.op.symbol_ne_nil (isOperatorChar_symbol link.op)
            link.atom (absent_of_looser ?_ unsplit others power)
          rw [split]
          simp
      have cut : first.chars ++ linkChars links =
          first.chars ++ linkChars before ++ link.op.symbol.toList ++
            (link.atom.chars ++ linkChars after) := by
        rw [split, linkChars_append, linkChars]
        simp only [List.append_assoc]
      rw [cut] at passes ⊢
      exact Expr.read_binary left right last passes

theorem Chain.read_chars (chain : Chain) : Expr.read chain.chars = .ok chain.tree :=
  read_linkChars chain.first chain.links

example (a b c d : Atom) : chainTree a [⟨.times, rfl, b⟩, ⟨.power, rfl, c⟩, ⟨.minus, rfl, d⟩] =
    .binary .minus (.binary .power (.binary .times a.tree b.tree) c.tree) d.tree := by
  cbv

end SelectionFormula
