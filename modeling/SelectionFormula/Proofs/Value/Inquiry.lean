import SelectionFormula.Proofs.Value.Eager

/-!
Asking a value, over and over.

An array is evaluated anew on every access, so evaluation goes on after a value is at hand:
elements are asked for, which may be arrays themselves, and any value is rendered. `inquire`
replays a list of such questions, each put to a value found so far. Of a tree that does not
draw, evaluation and every answer are the same under any two sources, and neither source is
used (`session_draws`). That no call of the random source hides in what a value still holds is
carried by one invariant: every value found agrees with a plain value (`Question.answer_agrees`,
`inquire_agrees`).
-/

namespace SelectionFormula

/-- What can be asked of a value. -/
inductive Question where
  /-- The element at a place. -/
  | get (place : Nat)
  /-- The element that a number selects. -/
  | select (position : Binary64)
  /-- Every element, one after the other. -/
  | each
  /-- The text. -/
  | render

/-- What is answered. Only an array has elements, and only what was found can be asked. -/
inductive Answer where
  | refused
  | element (found? : Option Value)
  | elements (found : List Value)
  | text (rendered : String)

namespace Answer

/-- The values that an answer brings to hand. -/
def found : Answer → List Value
  | element found? => found?.toList
  | elements found => found
  | _ => []

end Answer

namespace Question

/-- The answer of an array. -/
def answerArray (items : LazyArray) : Question → Sampled Answer
  | get place => return .element (← items.get? place)
  | select position => return .element (some (← items.select position))
  | each => return .elements (← items.each)
  | render => return .text (← (Value.array items).render)

/-- The answer of a value. -/
def answer (question : Question) : Value → Sampled Answer
  | .array items => question.answerArray items
  | value =>
    match question with
    | render => return .text (← value.render)
    | _ => pure .refused

/-- The answer of one of the values at hand, given by its place. -/
def answerAt (question : Question) (place : Nat) (hand : List Value) : Sampled Answer :=
  match hand[place]? with
  | none => pure .refused
  | some value => question.answer value

end Question

/-- Put questions to the values at hand; what is found comes to hand behind them. -/
def inquire : List (Nat × Question) → List Value → Sampled (List Answer)
  | [], _ => pure []
  | (place, question) :: questions, hand => do
    let answer ← question.answerAt place hand
    return answer :: (← inquire questions (hand ++ answer.found))

/-- Evaluate a tree, then put questions to its value and to what they bring to hand. -/
def Expr.session (e : Expr) (bindings : Bindings) (questions : List (Nat × Question)) :
    Sampled (Value × List Answer) := do
  let value ← e.evaluate bindings
  return (value, ← inquire questions [value])

/-! ### Values that do not draw -/

/-- A value that answers as a plain value does, and so does all that it holds. -/
def Value.Settled (value : Value) : Prop :=
  ∃ plain, value.Agrees plain

theorem Value.settled_empty : Value.empty.Settled :=
  ⟨.empty, .empty⟩

theorem Value.Settled.render {value : Value} (settled : value.Settled) :
    ∃ text, value.render = pure text := by
  obtain ⟨plain, agrees⟩ := settled
  exact ⟨plain.text, agrees.render⟩

/-- Every value related to a plain one is settled. -/
theorem settled_of_forall₂ {values : List Value} {list : List Plain}
    (agree : List.Forall₂ Value.Agrees values list) : ∀ value ∈ values, value.Settled := by
  induction agree with
  | nil => simp
  | cons here _ ih => exact List.forall_mem_cons.mpr ⟨⟨_, here⟩, ih⟩

namespace Question

/-- An array answers without drawing, and finds settled values only. -/
theorem answerArray_agrees {items : LazyArray} {values : List Value} {list : List Plain}
    (answers : items.Answers values list) (settled : ∀ value ∈ values, value.Settled)
    (question : Question) :
    ∃ answer, question.answerArray items = pure answer ∧ ∀ value ∈ answer.found, value.Settled := by
  cases question with
  | get place =>
    refine ⟨.element values[place]?, by rw [answerArray, answers.get?, pure_bind], ?_⟩
    intro value found
    exact settled value (List.mem_of_getElem? (Option.mem_toList.mp found))
  | select position =>
    refine ⟨_, by rw [answerArray, answers.select, pure_bind], ?_⟩
    intro value found
    rw [Answer.found, Option.toList_some, List.mem_singleton] at found
    subst found
    cases selected : (selectedPlace? list.length position).bind (values[·]?) with
    | none => exact Value.settled_empty
    | some value =>
      obtain ⟨place, _, at_place⟩ := Option.bind_eq_some_iff.mp selected
      exact settled value (List.mem_of_getElem? at_place)
  | each => exact ⟨.elements values, by rw [answerArray, answers.each, pure_bind], settled⟩
  | render =>
    exact ⟨.text _, by rw [answerArray, answers.render, pure_bind], by simp [Answer.found]⟩

/-- A settled value answers without drawing, and finds settled values only. -/
theorem answer_agrees {value : Value} (settled : value.Settled) (question : Question) :
    ∃ answer, question.answer value = pure answer ∧ ∀ value ∈ answer.found, value.Settled := by
  obtain ⟨text, rendered⟩ := settled.render
  obtain ⟨plain, agrees⟩ := settled
  cases agrees with
  | array answers agree => exact answerArray_agrees answers (settled_of_forall₂ agree) question
  | _ =>
    cases question with
    | render => exact ⟨.text text, by simp only [answer, rendered, pure_bind], by simp [Answer.found]⟩
    | _ => exact ⟨.refused, rfl, by simp [Answer.found]⟩

/-- Settled values at hand answer without drawing, and what is found is settled. -/
theorem answerAt_agrees (question : Question) (place : Nat) {hand : List Value}
    (settled : ∀ value ∈ hand, value.Settled) :
    ∃ answer, question.answerAt place hand = pure answer ∧
      ∀ value ∈ answer.found, value.Settled := by
  unfold answerAt
  cases at_place : hand[place]? with
  | none => exact ⟨.refused, rfl, by simp [Answer.found]⟩
  | some value => exact answer_agrees (settled value (List.mem_of_getElem? at_place)) question

end Question

/-- Settled values answer any number of questions without drawing. -/
theorem inquire_agrees (questions : List (Nat × Question)) {hand : List Value}
    (settled : ∀ value ∈ hand, value.Settled) :
    ∃ answers, inquire questions hand = pure answers := by
  induction questions generalizing hand with
  | nil => exact ⟨[], rfl⟩
  | cons question questions ih =>
    obtain ⟨place, question⟩ := question
    obtain ⟨answer, answered, found⟩ := question.answerAt_agrees place settled
    obtain ⟨answers, others⟩ := ih (List.forall_mem_append.mpr ⟨settled, found⟩)
    exact ⟨answer :: answers, by rw [inquire, answered, pure_bind, others, pure_bind]⟩

namespace Expr

/-- The session of a tree that does not draw is settled from the start. -/
theorem session_agrees {e : Expr} (calm : e.callsRandom = false) (bindings : Bindings)
    (questions : List (Nat × Question)) :
    ∃ outcome, e.session bindings questions = pure outcome := by
  obtain ⟨value, evaluated, agrees⟩ := evaluate_agrees bindings e calm
  obtain ⟨answers, answered⟩ := inquire_agrees questions
    (List.forall_mem_singleton.mpr (⟨_, agrees⟩ : value.Settled))
  exact ⟨(value, answers), by rw [session, evaluated, pure_bind, answered, pure_bind]⟩

/-- Of a tree that does not draw, the value and every later answer are the same whatever the
random source holds, and no number of the source is used. -/
theorem session_draws {e : Expr} (calm : e.callsRandom = false) (bindings : Bindings)
    (questions : List (Nat × Question)) (draws draws' : Draws) :
    (e.session bindings questions draws).1 = (e.session bindings questions draws').1 ∧
      (e.session bindings questions draws).2 = draws ∧
      (e.session bindings questions draws').2 = draws' := by
  obtain ⟨outcome, same⟩ := session_agrees calm bindings questions
  rw [same]
  exact ⟨rfl, rfl, rfl⟩

/-- An array that holds another. -/
def arrayInArray : Expr :=
  .array [.array [.argument "x", .unary .not (.argument "x")], .argument "i"]

/-- The inner array is selected and asked for its elements twice; the last of them and the
outer array are rendered. -/
def innerTwice : List (Nat × Question) :=
  [(0, .select .nan), (1, .each), (1, .each), (5, .render), (0, .get 2), (0, .render)]

theorem session_draws_arrayInArray :
    arrayInArray.callsRandom = false ∧
      (arrayInArray.session (.selection default 0) innerTwice (.seeded 1)).1 =
        (arrayInArray.session (.selection default 0) innerTwice (.seeded 2)).1 ∧
      (arrayInArray.session (.selection default 0) innerTwice (.seeded 1)).2 = .seeded 1 ∧
      (arrayInArray.session (.selection default 0) innerTwice (.seeded 2)).2 = .seeded 2 :=
  ⟨rfl, session_draws rfl _ _ _ _⟩

end Expr

end SelectionFormula
