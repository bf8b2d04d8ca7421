import Mathlib.Logic.Equiv.Defs
import SelectionFormula.Proofs.Selection.Commands
import SelectionFormula.Proofs.Value.Names

/-!
Mapping a formula over selections, one place at a time.

A formula that does not draw has one replacement for a text at an index
(`Formula.replacement`), decided by the text's number and the numbers of the names the formula
looks up (`Expr.eager_eq_of_lookups`). Mapping gives the replacements place by place, so neither
the other texts nor the order of evaluation have a part in any of them: long batches, which
may be evaluated in any order of their places (`mapOrdered`), are mapped as all others are
(`mapOrdered_eq_map`). A formula that does not mention `i` has the same replacement for a text
at every index.
-/

namespace SelectionFormula

namespace Expr

/-- A tree that does not mention `i` is evaluated alike at every index. -/
theorem eager_selection_eq {e : Expr} (absent : e.mentions "i" = false) (x : Binary64)
    (index index' : Nat) : e.eager (.selection x index) = e.eager (.selection x index') := by
  refine eager_eq_of_lookups e fun name mentioned => ?_
  have other : name ≠ "i" := by
    rintro rfl
    rw [absent] at mentioned
    cases mentioned
  simp only [Bindings.get?, Bindings.extra?, Bindings.selection, if_neg other]

end Expr

/-! ### Replacements -/

namespace Formula

variable {formula : Formula}

/-- The text that replaces another one at an index, by the formula's plain value. -/
def replacement (formula : Formula) (text : String) (index : Nat) : String :=
  (formula.root.eager (.selection (coerceNumber text) index)).text

theorem apply_eq_replacement (calm : formula.isDeterministic = true) (text : String)
    (index : Nat) : formula.apply (coerceNumber text) index =
      (pure (formula.replacement text index) : Sampled String) :=
  (Expr.evaluate_agrees _ formula.root (by simpa [isDeterministic] using calm)).render

theorem replacement_congr {text text' : String} (same : coerceNumber text = coerceNumber text')
    (index : Nat) : formula.replacement text index = formula.replacement text' index := by
  rw [replacement, replacement, same]

/-- The replacements of texts, each at its own index. -/
def replacements (formula : Formula) (texts : List String) : List String :=
  texts.zipIdx.map fun place => formula.replacement place.1 place.2

theorem length_replacements (texts : List String) :
    (formula.replacements texts).length = texts.length := by
  rw [replacements, List.length_map, List.length_zipIdx]

theorem getElem?_replacements (texts : List String) (k : Nat) :
    (formula.replacements texts)[k]? = texts[k]?.map fun text => formula.replacement text k := by
  rw [replacements, List.getElem?_map, List.getElem?_zipIdx, Option.map_map, Nat.zero_add]
  rfl

theorem replacements_eq_range (texts : List String) : formula.replacements texts =
    (List.range texts.length).map fun k => formula.replacement (texts.getD k "") k := by
  refine List.ext_getElem? fun k => ?_
  rw [getElem?_replacements, List.getElem?_map]
  rcases Nat.lt_or_ge k texts.length with inside | past
  · rw [List.getElem?_range inside, List.getElem?_eq_getElem inside]
    simp [List.getD, List.getElem?_eq_getElem inside]
  · rw [List.getElem?_eq_none past, List.getElem?_eq_none (by simpa using past)]
    rfl

/-- Without a mention of `i` the replacements are a map over the texts. -/
theorem replacements_eq_map (absent : formula.root.mentions "i" = false) (texts : List String) :
    formula.replacements texts = texts.map fun text => formula.replacement text 0 := by
  refine List.ext_getElem? fun k => ?_
  rw [getElem?_replacements, List.getElem?_map]
  congr 1
  funext text
  exact congrArg Plain.text (Expr.eager_selection_eq absent _ k 0)

end Formula

namespace Selection

variable {formula : Formula}

theorem mapFrom_eq_replacements (calm : formula.isDeterministic = true) (texts : List String) :
    mapFrom formula 0 texts = pure (formula.replacements texts) :=
  mapFrom_eq_pure fun place _ => formula.apply_eq_replacement calm place.1 place.2

theorem map_eq_replacements {source : String} (parsed : Formula.parse source = .ok formula)
    (calm : formula.isDeterministic = true) (texts : List String) :
    map source texts = .ok (pure (formula.replacements texts)) := by
  rw [map, parsed]
  exact congrArg Except.ok (mapFrom_eq_replacements calm texts)

/-! ### Any order of evaluation -/

theorem lookup_map_of_mem {β : Type} {order : List Nat} {k : Nat} (mem : k ∈ order)
    (f : Nat → β) : (order.map fun k => (k, f k)).lookup k = some (f k) := by
  induction order with
  | nil => cases mem
  | cons first order ih =>
    rw [List.map_cons, List.lookup_cons]
    by_cases here : k = first
    · rw [here, beq_self_eq_true]
    · rw [beq_false_of_ne here]
      exact ih ((List.mem_cons.mp mem).resolve_left here)

theorem mapInOrder_eq_replacements (calm : formula.isDeterministic = true) {order : List Nat}
    {texts : List String} (all : order.Perm (List.range texts.length)) :
    mapInOrder formula order texts = pure (formula.replacements texts) := by
  have each : (fun k => do
      let replacement ← formula.apply (coerceNumber (texts.getD k "")) k
      return (k, replacement)) =
      fun k => (pure (k, formula.replacement (texts.getD k "") k) : Sampled _) := by
    funext k
    rw [formula.apply_eq_replacement calm, pure_bind]
  rw [mapInOrder, each, List.mapM_pure, pure_bind]
  congr 1
  have placed : (List.range texts.length).filterMap
      ((order.map fun k => (k, formula.replacement (texts.getD k "") k)).lookup ·) =
      (List.range texts.length).filterMap
        (some ∘ fun k => formula.replacement (texts.getD k "") k) :=
    List.filterMap_congr fun k mem => lookup_map_of_mem (all.mem_iff.mpr mem) _
  rw [placed, List.filterMap_eq_map, Formula.replacements_eq_range]

/-- Whichever order a long batch is evaluated in, a formula that does not draw is mapped the
same. -/
theorem mapOrdered_eq_map {source : String} (parsed : Formula.parse source = .ok formula)
    (calm : formula.isDeterministic = true) {order : List Nat} {texts : List String}
    (all : order.Perm (List.range texts.length)) :
    mapOrdered order source texts = map source texts := by
  rw [mapOrdered, map, parsed]
  refine congrArg Except.ok ?_
  dsimp only
  rw [mapInOrder_eq_replacements calm all, mapFrom_eq_replacements calm]
  exact ite_self _

/-! ### One place at a time -/

/-- A text that is no formula is rejected whatever it is mapped over. A formula that does not
draw gives one replacement a text, whichever order the texts are evaluated in; texts with the
same number in the same place have the same replacement; and where the formula does not mention
`i`, texts moved to other places take their replacements with them. -/
theorem map_local (source : String) :
    (∀ rejection, Formula.parse source = .error rejection → ∀ order texts,
      map source texts = .error rejection ∧ mapOrdered order source texts = .error rejection) ∧
    ∀ formula, Formula.parse source = .ok formula → formula.isDeterministic = true →
      ∃ results : List String → List String,
        (∀ texts, map source texts = .ok (pure (results texts))) ∧
        (∀ texts order, order.Perm (List.range texts.length) →
          mapOrdered order source texts = .ok (pure (results texts))) ∧
        (∀ texts, (results texts).length = texts.length) ∧
        (∀ (texts texts' : List String) (k : Nat) (text text' : String),
          texts[k]? = some text → texts'[k]? = some text' →
          coerceNumber text = coerceNumber text' → (results texts)[k]? = (results texts')[k]?) ∧
        (formula.root.mentions "i" = false → ∀ (n : Nat) (texts : Fin n → String)
          (moved : Equiv.Perm (Fin n)), ∃ replaced : Fin n → String,
          results (List.ofFn texts) = List.ofFn replaced ∧
          results (List.ofFn (texts ∘ moved)) = List.ofFn (replaced ∘ moved)) := by
  refine ⟨fun rejection rejected order texts => ?_, fun formula parsed calm => ?_⟩
  · rw [map, mapOrdered, rejected]
    exact ⟨rfl, rfl⟩
  have mapped := map_eq_replacements parsed calm
  refine ⟨formula.replacements, mapped, fun texts order all => ?_, Formula.length_replacements,
    fun texts texts' k text text' here there same => ?_, fun absent n texts moved => ?_⟩
  · rw [mapOrdered_eq_map parsed calm all, mapped]
  · rw [Formula.getElem?_replacements, Formula.getElem?_replacements, here, there]
    exact congrArg some (Formula.replacement_congr same k)
  · refine ⟨fun k => formula.replacement (texts k) 0, ?_, ?_⟩
    · rw [Formula.replacements_eq_map absent, List.map_ofFn]
      rfl
    · rw [Formula.replacements_eq_map absent, List.map_ofFn]
      rfl

/-- A number in two notations, after numbers that differ, and a text that is no formula. -/
theorem map_local_notations :
    Formula.parse "x + 1" = .ok ⟨"x + 1", stepped .plus⟩ ∧
    coerceNumber "41" = coerceNumber "0x29" ∧
    (∃ results : List String → List String,
      (∀ texts, map "x + 1" texts = .ok (pure (results texts))) ∧
      (results ["1", "41"]).length = 2 ∧
      (results ["1", "41"])[1]? = (results ["abc", "0x29", "5"])[1]?) ∧
    Formula.parse "" = .error ⟨.emptyInput, 0⟩ ∧
    map "" ["1", "41"] = .error ⟨.emptyInput, 0⟩ := by
  have parsed : Formula.parse "x + 1" = .ok ⟨"x + 1", stepped .plus⟩ := parse_stepped rfl rfl
  have same : coerceNumber "41" = coerceNumber "0x29" := by decide +kernel
  have rejected : Formula.parse "" = .error ⟨.emptyInput, 0⟩ := by cbv
  obtain ⟨results, mapped, -, length, alike, -⟩ := (map_local "x + 1").2 _ parsed rfl
  exact ⟨parsed, same, ⟨results, mapped, length _, alike _ _ 1 _ _ rfl rfl same⟩, rejected,
    ((map_local "").1 _ rejected [] _).1⟩

end Selection

end SelectionFormula
