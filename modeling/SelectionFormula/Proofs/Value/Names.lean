import SelectionFormula.Proofs.Value.Eager

/-!
What evaluation sees of bindings.

A tree that does not draw looks up the names it mentions and nothing else: bindings with the same
number for each of these give it one plain value and one text (`Expr.sameResults_of_lookups`),
though the arrays on the way hold the one bindings or the other.

Bindings are built from a selection by giving extra names numbers. What a name then stands for is
decided by what is given to it and by nothing that is given to others (`get?_insert`,
`get?_insertAll`). So it makes no difference in which order different names are given
(`get?_insertAll_of_perm`), what a name was given before it is given a number again, what is given
to a name that a tree does not mention, or what number and index a selection had whose names are
shadowed (`get?_insertAll_of_mem`).
-/

namespace SelectionFormula

/-! ### Names -/

namespace Bindings

variable {a b : Bindings} {name : String} {entries entries' : List (String × Binary64)}

/-- Give extra names numbers, one after the other. -/
def insertAll (bindings : Bindings) (entries : List (String × Binary64)) : Bindings :=
  entries.foldl (fun bindings entry => bindings.insert entry.1 entry.2) bindings

@[simp] theorem insertAll_nil (bindings : Bindings) : bindings.insertAll [] = bindings :=
  rfl

@[simp] theorem insertAll_cons (bindings : Bindings) (entry : String × Binary64)
    (entries : List (String × Binary64)) : bindings.insertAll (entry :: entries) =
      (bindings.insert entry.1 entry.2).insertAll entries :=
  rfl

theorem insertAll_append (bindings : Bindings) (first later : List (String × Binary64)) :
    bindings.insertAll (first ++ later) = (bindings.insertAll first).insertAll later :=
  List.foldl_append

theorem lookup_filter_ne {other : String} (differs : name ≠ other)
    (entries : List (String × Binary64)) :
    (entries.filter (·.1 != other)).lookup name = entries.lookup name := by
  induction entries with
  | nil => rfl
  | cons entry entries ih =>
    obtain ⟨key, value⟩ := entry
    by_cases removed : key = other
    · have passed : (name == key) = false := by simpa [removed] using differs
      simp [removed, ih, List.lookup_cons, removed ▸ passed]
    · simp [removed, ih, List.lookup_cons]

/-- What a name stands for once a name is given a number. -/
theorem get?_insert (bindings : Bindings) (given : String) (value : Binary64) (name : String) :
    (bindings.insert given value).get? name =
      if name = given then some value else bindings.get? name := by
  by_cases same : name = given
  · subst same
    simp [get?, extra?, insert]
  · have passed : (name == given) = false := by simpa using same
    simp only [get?, extra?, insert, List.lookup_cons, passed, lookup_filter_ne same, if_neg same]

theorem get?_insert_congr (same : a.get? name = b.get? name) (given : String) (value : Binary64) :
    (a.insert given value).get? name = (b.insert given value).get? name := by
  rw [get?_insert, get?_insert, same]

/-- Numbers are given name by name: one name's number goes by nothing but what it was. -/
theorem get?_insertAll (same : a.get? name = b.get? name) (entries : List (String × Binary64)) :
    (a.insertAll entries).get? name = (b.insertAll entries).get? name := by
  induction entries generalizing a b with
  | nil => exact same
  | cons entry entries ih => exact ih (get?_insert_congr same entry.1 entry.2)

/-- An extra name stands for what it is given, whatever it stood for before. -/
theorem get?_insertAll_of_mem (a b : Bindings) (shadowed : name ∈ entries.map (·.1)) :
    (a.insertAll entries).get? name = (b.insertAll entries).get? name := by
  induction entries generalizing a b with
  | nil => simp at shadowed
  | cons entry entries ih =>
    by_cases again : name ∈ entries.map (·.1)
    · exact ih _ _ again
    · obtain rfl : name = entry.1 := by simpa [again] using shadowed
      refine get?_insertAll ?_ entries
      rw [get?_insert, get?_insert, if_pos rfl, if_pos rfl]

theorem get?_insert_comm (bindings : Bindings) {given given' : String} (differ : given ≠ given')
    (value value' : Binary64) (name : String) :
    ((bindings.insert given value).insert given' value').get? name =
      ((bindings.insert given' value').insert given value).get? name := by
  simp only [get?_insert]
  by_cases first : name = given
  · subst first
    simp [differ]
  · simp [first]

/-- Different names may be given their numbers in any order. -/
theorem get?_insertAll_of_perm (perm : entries.Perm entries')
    (different : (entries.map (·.1)).Nodup) (bindings : Bindings) (name : String) :
    (bindings.insertAll entries).get? name = (bindings.insertAll entries').get? name := by
  induction perm generalizing bindings with
  | nil => rfl
  | cons entry _ ih => exact ih (List.nodup_cons.mp different).2 _
  | swap first second entries =>
    have differ : second.1 ≠ first.1 := by
      rintro same
      simp [same] at different
    exact get?_insertAll (get?_insert_comm bindings differ second.2 first.2 name) entries
  | trans first _ ih ih' =>
    exact (ih different bindings).trans (ih' ((first.map (·.1)).nodup_iff.mp different) bindings)

end Bindings

/-! ### What a tree looks up -/

namespace Expr

mutual

/-- Bindings with the same number for every name that a tree mentions give it the same plain
value. -/
theorem eager_eq_of_lookups {a b : Bindings} (e : Expr)
    (same : ∀ name, e.mentions name = true → a.get? name = b.get? name) :
    e.eager a = e.eager b := by
  cases e with
  | constant value => rfl
  | argument name => rw [eager, eager, same name (by simp [mentions])]
  | unary op operand => rw [eager, eager, eager_eq_of_lookups operand same]
  | binary op left right =>
    rw [eager, eager,
      eager_eq_of_lookups left fun name here => same name (by simp [mentions, here]),
      eager_eq_of_lookups right fun name here => same name (by simp [mentions, here])]
  | conditional condition yes no =>
    rw [eager, eager,
      eager_eq_of_lookups condition fun name here => same name (by simp [mentions, here]),
      eager_eq_of_lookups yes fun name here => same name (by simp [mentions, here]),
      eager_eq_of_lookups no fun name here => same name (by simp [mentions, here])]
  | array elements => rw [eager, eager, eagerAll_eq_of_lookups elements same]
  | index items position =>
    rw [eager, eager,
      eager_eq_of_lookups items fun name here => same name (by simp [mentions, here]),
      eager_eq_of_lookups position fun name here => same name (by simp [mentions, here])]
  | call function arguments => rw [eager, eager, eagerAll_eq_of_lookups arguments same]

theorem eagerAll_eq_of_lookups {a b : Bindings} (es : List Expr)
    (same : ∀ name, anyMentions name es = true → a.get? name = b.get? name) :
    eagerAll es a = eagerAll es b := by
  cases es with
  | nil => rfl
  | cons e es =>
    rw [eagerAll, eagerAll,
      eager_eq_of_lookups e fun name here => same name (by simp [anyMentions, here]),
      eagerAll_eq_of_lookups es fun name here => same name (by simp [anyMentions, here])]

end

/-- Under both bindings a tree is forced to one plain value and rendered to one text, and
nothing is drawn. -/
def SameResults (e : Expr) (a b : Bindings) : Prop :=
  ∃ plain : Plain,
    (do (← e.evaluate a).force) = (pure plain : Sampled Plain) ∧
    (do (← e.evaluate b).force) = (pure plain : Sampled Plain) ∧
    (do (← e.evaluate a).render) = (pure plain.text : Sampled String) ∧
    (do (← e.evaluate b).render) = (pure plain.text : Sampled String)

variable {e : Expr}

/-- Both evaluations are what evaluation without waiting arrays gives, and that sees only what is
looked up. -/
theorem sameResults_of_lookups (calm : e.callsRandom = false) {a b : Bindings}
    (same : ∀ name, e.mentions name = true → a.get? name = b.get? name) : e.SameResults a b := by
  have left := evaluate_agrees a e calm
  have right := evaluate_agrees b e calm
  rw [← eager_eq_of_lookups e same] at right
  exact ⟨e.eager a, left.force, right.force, left.render, right.render⟩

/-- A selection's own number and index are seen only where a tree mentions their name and nothing
shadows it. -/
theorem get?_selection_insertAll {x x' : Binary64} {index index' : Nat}
    {entries : List (String × Binary64)}
    (number : e.mentions "x" = true → x = x' ∨ "x" ∈ entries.map (·.1))
    (place : e.mentions "i" = true → index = index' ∨ "i" ∈ entries.map (·.1)) {name : String}
    (mentioned : e.mentions name = true) :
    ((Bindings.selection x index).insertAll entries).get? name =
      ((Bindings.selection x' index').insertAll entries).get? name := by
  by_cases shadowed : name ∈ entries.map (·.1)
  · exact Bindings.get?_insertAll_of_mem _ _ shadowed
  · refine Bindings.get?_insertAll ?_ entries
    have given : ∀ (x : Binary64) (index : Nat), (Bindings.selection x index).get? name =
        if name = "x" then some x else if name = "i" then some (.ofNat index)
        else mathConstants.lookup name := fun _ _ => rfl
    rw [given, given]
    split
    · next is_number =>
      subst is_number
      rw [(number mentioned).resolve_right shadowed]
    · split
      · next is_index =>
        subst is_index
        rw [(place mentioned).resolve_right shadowed]
      · rfl

/-- A tree that does not draw has the same results under bindings that give the names it mentions
the same numbers. It makes no difference to it in which order different names are given their
numbers, what a name was given before it is given a number again, what is given to a name that it
does not mention, or what selection the bindings are built on, as far as it does not mention `x`
and `i` or they are shadowed. -/
theorem results_by_mentioned_names (calm : e.callsRandom = false) :
    (∀ a b : Bindings, (∀ name, e.mentions name = true → a.get? name = b.get? name) →
      e.SameResults a b) ∧
    (∀ (bindings : Bindings) (entries entries' later : List (String × Binary64)),
      (entries.map (·.1)).Nodup → entries.Perm entries' →
      e.SameResults (bindings.insertAll (entries ++ later))
        (bindings.insertAll (entries' ++ later))) ∧
    (∀ (bindings : Bindings) (name : String) (old new : Binary64)
      (between later : List (String × Binary64)),
      e.SameResults (bindings.insertAll ((name, old) :: between ++ (name, new) :: later))
        (bindings.insertAll (between ++ (name, new) :: later))) ∧
    (∀ (bindings : Bindings) (name : String) (value : Binary64)
      (earlier later : List (String × Binary64)), e.mentions name = false →
      e.SameResults (bindings.insertAll (earlier ++ (name, value) :: later))
        (bindings.insertAll (earlier ++ later))) ∧
    (∀ (x x' : Binary64) (index index' : Nat) (entries : List (String × Binary64)),
      (e.mentions "x" = true → x = x' ∨ "x" ∈ entries.map (·.1)) →
      (e.mentions "i" = true → index = index' ∨ "i" ∈ entries.map (·.1)) →
      e.SameResults ((Bindings.selection x index).insertAll entries)
        ((Bindings.selection x' index').insertAll entries)) := by
  refine ⟨fun a b same => sameResults_of_lookups calm same, ?order, ?again, ?unmentioned,
    ?selection⟩
  case order =>
    intro bindings entries entries' later different perm
    refine sameResults_of_lookups calm fun name _ => ?_
    have front := Bindings.get?_insertAll_of_perm perm different bindings name
    rw [Bindings.insertAll_append, Bindings.insertAll_append]
    exact Bindings.get?_insertAll front later
  case again =>
    intro bindings name old new between later
    refine sameResults_of_lookups calm fun other _ => ?_
    rw [List.cons_append, Bindings.insertAll_cons]
    by_cases given : other = name
    · subst given
      exact Bindings.get?_insertAll_of_mem _ _ (by simp)
    · refine Bindings.get?_insertAll ?_ _
      rw [Bindings.get?_insert, if_neg given]
  case unmentioned =>
    intro bindings name value earlier later absent
    refine sameResults_of_lookups calm fun other mentioned => ?_
    have differs : other ≠ name := by
      rintro rfl
      rw [absent] at mentioned
      cases mentioned
    rw [Bindings.insertAll_append, Bindings.insertAll_append, Bindings.insertAll_cons]
    refine Bindings.get?_insertAll ?_ later
    rw [Bindings.get?_insert, if_neg differs]
  case selection =>
    intro x x' index index' entries number place
    exact sameResults_of_lookups calm fun name mentioned =>
      get?_selection_insertAll number place mentioned

/-- `[x, [PI, y]][1]`: an array that holds names until it is rendered. -/
def heldNames : Expr :=
  .index (.array [.argument "x", .array [.argument "PI", .argument "y"]]) (.constant .one)

/-- The index and a name that is not mentioned make no difference, nor the order of the others. -/
theorem results_by_mentioned_names_heldNames :
    heldNames.callsRandom = false ∧
    heldNames.SameResults
      ((Bindings.selection .one 4).insertAll [("PI", .one), ("y", .nan), ("x", .one), ("E", .nan)])
      ((Bindings.selection .one 7).insertAll [("y", .one), ("PI", .one), ("y", .nan)]) := by
  refine ⟨rfl, (results_by_mentioned_names rfl).1 _ _ fun name mentioned => ?_⟩
  have names : "x" = name ∨ "PI" = name ∨ "y" = name := by
    simpa [heldNames, mentions, anyMentions] using mentioned
  rcases names with rfl | rfl | rfl <;> rfl

end Expr

end SelectionFormula
