import SelectionFormula.Proofs.Text.Occurrence

/-!
Which bracket closes which.

In a balanced text a bracket at the front is closed somewhere behind it, with
balanced texts between and behind (`Balanced.exists_closer`), and one at the end was
opened somewhere in front of it (`Balanced.exists_opener`). A text inside a pair of
brackets that are not each other's is balanced on its own or has the two brackets'
partners in it (`Balanced.group_cases`).

* `lastOccurrence?_partner` — the last square bracket opened outside all others is the
  partner of the one that ends the text.
* `faultFrom?_append_of_balanced` — a balanced part in front moves a fault by its bytes.
-/

namespace SelectionFormula.Text

variable {bracket : Bracket} {s t : List Char}

theorem eq_opener_of_mark {c : Char} (mark : BracketMark.ofChar? c = some (.opening bracket)) :
    c = bracket.opener := by
  unfold BracketMark.ofChar? at mark
  split at mark <;> cases mark <;> rfl

theorem eq_closer_of_mark {c : Char} (mark : BracketMark.ofChar? c = some (.closing bracket)) :
    c = bracket.closer := by
  unfold BracketMark.ofChar? at mark
  split at mark <;> cases mark <;> rfl

/-! ### Partners -/

/-- A bracket below others that are open is closed once those are, when it does not stay open. -/
theorem exists_closer_of_openAfter? {above outer after : List Bracket}
    (run : openAfter? (above ++ bracket :: outer) t = some after)
    (closed : after.length ≤ outer.length) :
    ∃ inner rest, t = inner ++ bracket.closer :: rest ∧ openAfter? above inner = some [] ∧
      openAfter? outer rest = some after := by
  induction t generalizing above with
  | nil =>
    cases Option.some.inj run
    simp at closed
    omega
  | cons c t ih =>
    cases mark : BracketMark.ofChar? c with
    | none =>
      obtain ⟨inner, rest, rfl, first, later⟩ := ih (by simpa [openAfter?, mark] using run)
      exact ⟨c :: inner, rest, rfl, by simpa [openAfter?, mark] using first, later⟩
    | some side =>
      cases side with
      | opening kind =>
        obtain ⟨inner, rest, rfl, first, later⟩ :=
          @ih (kind :: above) (by simpa [openAfter?, mark] using run)
        exact ⟨c :: inner, rest, rfl, by simpa [openAfter?, mark] using first, later⟩
      | closing kind =>
        cases above with
        | nil =>
          by_cases same : bracket = kind
          · subst same
            refine ⟨[], t, by rw [eq_closer_of_mark mark]; rfl, rfl, ?_⟩
            simpa [openAfter?, mark] using run
          · simp [openAfter?, mark, same] at run
        | cons innermost above =>
          by_cases same : innermost = kind
          · subst same
            obtain ⟨inner, rest, rfl, first, later⟩ :=
              ih (by simpa [openAfter?, mark] using run)
            exact ⟨c :: inner, rest, rfl, by simpa [openAfter?, mark] using first, later⟩
          · simp [openAfter?, mark, same] at run

/-- A bracket that stays open behind a text was opened in it, and all behind it is closed. -/
theorem exists_opener_of_openAfter? {after : List Bracket}
    (run : openAfter? [] t = some (bracket :: after)) :
    ∃ outer inner, t = outer ++ bracket.opener :: inner ∧ openAfter? [] outer = some after ∧
      Balanced inner := by
  induction size : t.length using Nat.strongRecOn generalizing t bracket after with
  | ind n ih =>
    rcases List.eq_nil_or_concat t with rfl | ⟨front, c, rfl⟩
    · cases run
    rw [List.length_concat] at size
    rw [List.concat_eq_append] at run ⊢
    rw [openAfter?_append] at run
    obtain ⟨stack, first, last⟩ := Option.bind_eq_some_iff.mp run
    cases mark : BracketMark.ofChar? c with
    | none =>
      have same : stack = bracket :: after := by simpa [openAfter?, mark] using last
      obtain ⟨outer, inner, rfl, before, balanced⟩ := ih front.length (by omega) (same ▸ first) rfl
      have plain : Unbracketed [c] := by simpa [Unbracketed] using mark
      exact ⟨outer, inner ++ [c], by simp, before, balanced.append plain.balanced⟩
    | some side =>
      cases side with
      | opening kind =>
        have same : kind :: stack = bracket :: after := by simpa [openAfter?, mark] using last
        obtain ⟨rfl, rfl⟩ := List.cons.inj same
        exact ⟨front, [], by rw [eq_opener_of_mark mark], first, balanced_nil⟩
      | closing kind =>
        -- The closer's own partner comes first; the bracket in question is open in front of it.
        obtain ⟨rfl⟩ : stack = kind :: bracket :: after := by
          cases stack with
          | nil => simp [openAfter?, mark] at last
          | cons innermost stack =>
            by_cases same : innermost = kind
            · subst same
              simpa [openAfter?, mark] using last
            · simp [openAfter?, mark, same] at last
        obtain ⟨outer', inner', rfl, before', balanced'⟩ := ih front.length (by omega) first rfl
        rw [List.length_append] at size
        obtain ⟨outer, inner, rfl, before, balanced⟩ := ih outer'.length (by omega) before' rfl
        refine ⟨outer, inner ++ (kind.opener :: inner' ++ [kind.closer]), ?_, before,
          balanced.append (balanced'.group kind)⟩
        rw [eq_closer_of_mark mark]
        simp

/-- What closes a bracket at the front of a balanced text. -/
theorem Balanced.exists_closer (balanced : Balanced (bracket.opener :: t)) :
    ∃ inner rest, t = inner ++ bracket.closer :: rest ∧ Balanced inner ∧ Balanced rest := by
  have run : openAfter? ([] ++ [bracket]) t = some [] := by
    simpa [Balanced, openAfter?] using balanced
  exact exists_closer_of_openAfter? run (Nat.le_refl 0)

/-- What opened a bracket at the end of a balanced text. -/
theorem Balanced.exists_opener (balanced : Balanced (s ++ [bracket.closer])) :
    ∃ outer inner, s = outer ++ bracket.opener :: inner ∧ Balanced outer ∧ Balanced inner := by
  rw [Balanced, openAfter?_append] at balanced
  obtain ⟨stack, run, last⟩ := Option.bind_eq_some_iff.mp balanced
  obtain ⟨rfl⟩ : stack = [bracket] := by
    cases stack with
    | nil => simp [openAfter?] at last
    | cons innermost stack =>
      by_cases same : innermost = bracket
      · subst same
        simpa [openAfter?] using last
      · simp [openAfter?, same] at last
  exact exists_opener_of_openAfter? run

/-- What stands between a bracket at the front of a balanced text and one at its end is
balanced, or the two are not partners and theirs stand in it. -/
theorem Balanced.group_cases (balanced : Balanced (bracket.opener :: t ++ [bracket.closer])) :
    Balanced t ∨ ∃ inner between last,
      t = inner ++ bracket.closer :: between ++ bracket.opener :: last ∧
      Balanced inner ∧ Balanced between ∧ Balanced last := by
  obtain ⟨outer, last, split, front, behind⟩ := balanced.exists_opener
  cases outer with
  | nil =>
    obtain ⟨-, rfl⟩ := List.cons.inj split
    exact .inl behind
  | cons c outer =>
    obtain ⟨rfl, rfl⟩ := List.cons.inj split
    obtain ⟨inner, between, rfl, first, middle⟩ := front.exists_closer
    exact .inr ⟨inner, between, last, rfl, first, middle, behind⟩

/-- Nothing that a closing bracket ends was opened inside the balanced text in front of it. -/
theorem lastOccurrence?_opener {inner : List Char} (balanced : Balanced inner) :
    lastOccurrence? ['['] (inner ++ [']']) = none := by
  rw [lastOccurrence?_eq_none_iff (by simp)]
  intro s t split zero front
  rcases List.append_eq_append_iff.mp split with ⟨u, rfl, close⟩ | ⟨u, rfl, rfl⟩
  · obtain ⟨rest, rfl⟩ := front
    have mem : '[' ∈ [']'] := by
      rw [close]
      simp
    exact absurd mem (by decide)
  · have back := balanced.depth_back_nonpos
    have closer : nesting ']' = -1 := rfl
    rw [depth_append, depth_cons, depth_nil, closer] at zero
    omega

/-- The last square bracket opened outside all others is the partner of the one that ends
the text. -/
theorem lastOccurrence?_partner {text : List Char} (balanced : Balanced text)
    (last : text.getLast? = some ']') :
    ∃ outer inner, text = outer ++ '[' :: inner ++ [']'] ∧ Balanced outer ∧ Balanced inner ∧
      lastOccurrence? ['['] text = some (byteLength outer) := by
  obtain ⟨front, rfl⟩ := List.getLast?_eq_some_iff.mp last
  obtain ⟨outer, inner, rfl, before, behind⟩ := @Balanced.exists_opener .square front balanced
  have closed : depth (['['] ++ (inner ++ [']'])) = 0 := (behind.group .square).depth_eq_zero
  have found := @lastOccurrence?_at '[' [] _ closed (lastOccurrence?_opener behind) outer
  exact ⟨outer, inner, rfl, before, behind, by simpa [Bracket.opener] using found⟩

/-! ### Faults behind and around balanced texts -/

/-- A part that closes all it opens does not change what is at fault behind it. -/
theorem faultFrom?_append_of_openAfter? {opened : List (Bracket × Nat)}
    (run : openAfter? (opened.map (·.1)) s = some []) (pending : List (Bracket × Nat))
    (offset : Nat) (t : List Char) :
    faultFrom? (opened ++ pending) offset (s ++ t) =
      faultFrom? pending (offset + byteLength s) t := by
  induction s generalizing opened offset with
  | nil =>
    obtain rfl : opened = [] := List.map_eq_nil_iff.mp (Option.some.inj run)
    simp
  | cons c s ih =>
    rw [List.cons_append, faultFrom?, byteLength_cons, ← Nat.add_assoc]
    cases mark : BracketMark.ofChar? c with
    | none => exact ih (by simpa [openAfter?, mark] using run) (offset + c.utf8Size)
    | some side =>
      cases side with
      | opening kind =>
        exact @ih ((kind, offset) :: opened) (by simpa [openAfter?, mark] using run)
          (offset + c.utf8Size)
      | closing kind =>
        cases opened with
        | nil => simp [openAfter?, mark] at run
        | cons innermost opened =>
          by_cases same : innermost.1 = kind
          · have rest : openAfter? (opened.map (·.1)) s = some [] := by
              simpa [openAfter?, mark, same] using run
            simpa [same] using ih rest (offset + c.utf8Size)
          · simp [openAfter?, mark, same] at run

theorem faultFrom?_append_of_balanced (balanced : Balanced s) (pending : List (Bracket × Nat))
    (offset : Nat) (t : List Char) :
    faultFrom? pending offset (s ++ t) = faultFrom? pending (offset + byteLength s) t :=
  @faultFrom?_append_of_openAfter? s [] balanced pending offset t

/-- A fault's offset counts from where the text begins. -/
theorem faultFrom?_add (pending : List (Bracket × Nat)) (offset shift : Nat) (t : List Char) :
    faultFrom? (pending.map fun entry => (entry.1, entry.2 + shift)) (offset + shift) t =
      (faultFrom? pending offset t).map (· + shift) := by
  fun_induction faultFrom? pending offset t with
  | case1 pending offset =>
    simp [faultFrom?, List.getLast?_map, Function.comp_def]
  | case2 pending offset c text mark ih =>
    simpa [faultFrom?, mark, Nat.add_right_comm] using ih
  | case3 pending offset c text kind mark ih =>
    simpa [faultFrom?, mark, Nat.add_right_comm] using ih
  | case4 offset c text kind start outer mark ih =>
    simpa [faultFrom?, mark, Nat.add_right_comm] using ih
  | case5 offset c text kind mark innermost start outer other =>
    simp [faultFrom?, mark, other]
  | case6 offset c text kind mark => simp [faultFrom?, mark]

/-- What does not open or close anything behind a text does not change its fault. -/
theorem faultFrom?_append_of_unbracketed {trail : List Char} (plain : Unbracketed trail)
    (pending : List (Bracket × Nat)) (offset : Nat) (t : List Char) :
    faultFrom? pending offset (t ++ trail) = faultFrom? pending offset t := by
  have none : ∀ (pending : List (Bracket × Nat)) (offset : Nat),
      faultFrom? pending offset trail = faultFrom? pending offset [] := by
    induction trail with
    | nil => exact fun _ _ => rfl
    | cons c trail ih =>
      intro pending offset
      have later := ih plain.tail pending (offset + c.utf8Size)
      simpa [faultFrom?, plain c List.mem_cons_self] using later
  fun_induction faultFrom? pending offset t with
  | case1 pending offset => exact none pending offset
  | case2 pending offset c text mark ih => simpa [faultFrom?, mark] using ih
  | case3 pending offset c text kind mark ih => simpa [faultFrom?, mark] using ih
  | case4 offset c text kind start outer mark ih => simpa [faultFrom?, mark] using ih
  | case5 offset c text kind mark innermost start outer other =>
    simp [faultFrom?, mark, other]
  | case6 offset c text kind mark => simp [faultFrom?, mark]

/-- A closing bracket behind a balanced text is at fault. -/
theorem firstFault?_closer (balanced : Balanced s) (bracket : Bracket) (t : List Char) :
    firstFault? (s ++ bracket.closer :: t) = some (byteLength s) := by
  rw [firstFault?, faultFrom?_append_of_balanced balanced, faultFrom?, ofChar?_closer,
    Nat.zero_add]

end SelectionFormula.Text
