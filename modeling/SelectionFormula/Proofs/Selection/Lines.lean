import SelectionFormula.CommandLine
import SelectionFormula.Proofs.Selection.Locality
import SelectionFormula.Proofs.Value.Alike

/-!
The output of a command, read again line by line.

A replacement is written with the characters of numbers and with commas (`chars_rendered`), whatever
formula it comes from, so it is a text that one line holds (`isLine_of_rendered`). Such texts, each
on a line of its own, are what the output is split into (`lines_unlines`), the empty ones too. So a
successful run answers one line for each that it was given (`lines_of_run`), and the output of one
run is the list of selections of the next one.
-/

namespace SelectionFormula

open Binary64

/-! ### The characters of replacements -/

/-- A character of a number's text, or the comma between two elements. -/
def isRenderedChar (c : Char) : Bool :=
  isWordChar c || c == '+' || c == '-' || c == ','

theorem isRenderedChar_of_number {c : Char} (number : isWordChar c = true ∨ c = '+' ∨ c = '-') :
    isRenderedChar c = true := by
  rcases number with word | rfl | rfl
  · simp [isRenderedChar, word]
  · rfl
  · rfl

theorem toDigits_rendered (n : Nat) : ∀ c ∈ Nat.toDigits 10 n, isRenderedChar c = true :=
  fun _ mem => isRenderedChar_of_number (.inl (isWordChar_of_isDigit
    (Nat.isDigit_of_mem_toDigits (by decide) (by decide) mem)))

theorem Binary64.chars_rendered (x : Binary64) : ∀ c ∈ x.chars, isRenderedChar c = true := by
  cases x with
  | nan => exact List.all_eq_true.mp rfl
  | infinite negative => cases negative <;> exact List.all_eq_true.mp rfl
  | finite negative m q canonical =>
    rcases Nat.eq_zero_or_pos m with rfl | positive
    · rw [chars_zero]
      exact List.forall_mem_singleton.mpr rfl
    -- Without its sign the text is a literal.
    have digits := digits_shortest_pos canonical positive
    have literal := number?_layout (allDigits_significantDigits _)
      (significantDigits_ne_nil digits) (shortest m q).pointPosition
    have magnitude := fun c mem => isRenderedChar_of_number (Literal.number?_chars literal c mem)
    rw [chars_finite negative canonical positive]
    cases negative
    · exact magnitude
    · exact List.forall_mem_cons.mpr ⟨rfl, magnitude⟩

mutual

theorem Plain.chars_rendered : ∀ (value : Plain), ∀ c ∈ value.chars, isRenderedChar c = true
  | .number value => by
    rw [Plain.chars]
    exact value.chars_rendered
  | .list elements => by
    rw [Plain.chars]
    exact joined_rendered elements
  | .empty => by
    rw [Plain.chars]
    exact List.forall_mem_nil _

theorem Plain.joined_rendered :
    ∀ (elements : List Plain), ∀ c ∈ Plain.joined elements, isRenderedChar c = true
  | [] => by
    rw [Plain.joined]
    exact List.forall_mem_nil _
  | e :: es => by
    rw [Plain.joined]
    exact List.forall_mem_append.mpr ⟨e.chars_rendered, further_rendered es⟩

theorem Plain.further_rendered :
    ∀ (elements : List Plain), ∀ c ∈ Plain.further elements, isRenderedChar c = true
  | [] => by
    rw [Plain.further]
    exact List.forall_mem_nil _
  | e :: es => by
    rw [Plain.further]
    exact List.forall_mem_append.mpr
      ⟨List.forall_mem_cons.mpr ⟨rfl, e.chars_rendered⟩, further_rendered es⟩

end

namespace CommandLine

/-! ### Lines -/

/-- A text that one line holds. A carriage return at the end would be taken for the line's. -/
structure IsLine (text : List Char) : Prop where
  feedless : '\n' ∉ text
  returnless : text.getLast? ≠ some '\r'

theorem isLine_of_rendered {text : List Char} (rendered : ∀ c ∈ text, isRenderedChar c = true) :
    IsLine text where
  feedless mem := by
    have := rendered _ mem
    revert this
    decide
  returnless last := by
    have := rendered _ (List.mem_of_getLast? last)
    revert this
    decide

theorem dropReturn_eq_self {line : List Char} (returnless : line.getLast? ≠ some '\r') :
    dropReturn line = line := by
  unfold dropReturn
  split
  · next last => exact absurd last returnless
  · rfl

/-- A line ends at its line feed. -/
theorem linesFrom_append {front : List Char} (feedless : '\n' ∉ front) (line text : List Char) :
    linesFrom line (front ++ '\n' :: text) =
      dropReturn (line.reverse ++ front) :: linesFrom [] text := by
  induction front generalizing line with
  | nil => rw [List.nil_append, linesFrom, List.append_nil]
  | cons c front ih =>
    obtain ⟨other, feedless⟩ := not_or.mp (List.mem_cons.not.mp feedless)
    rw [List.cons_append, linesFrom, ih feedless]
    · simp
    · exact fun same => other same.symm

theorem toList_unlines_cons (text : String) (texts : List String) :
    (unlines (text :: texts)).toList = text.toList ++ '\n' :: (unlines texts).toList := by
  simp [unlines, String.toList_join]

/-- Texts on lines of their own are read again. -/
theorem lines_unlines {texts : List String} (each : ∀ text ∈ texts, IsLine text.toList) :
    lines (unlines texts) = texts := by
  induction texts with
  | nil => rfl
  | cons text texts ih =>
    obtain ⟨first, others⟩ := List.forall_mem_cons.mp each
    have rest := ih others
    rw [lines] at rest ⊢
    rw [toList_unlines_cons, linesFrom_append first.feedless, List.reverse_nil, List.nil_append,
      dropReturn_eq_self first.returnless, List.map_cons, String.ofList_toList, rest]

/-! ### Replacements -/

theorem isLine_index (count : Nat) : ∀ text ∈ Selection.index count, IsLine text.toList := by
  intro text mem
  obtain ⟨n, -, rfl⟩ := List.mem_map.mp mem
  have digits : (toString n).toList = Nat.toDigits 10 n := String.toList_ofList
  rw [digits]
  exact isLine_of_rendered (toDigits_rendered n)

theorem isLine_step (delta : Binary64) (texts : List String) :
    ∀ text ∈ Selection.step delta texts, IsLine text.toList := by
  intro text mem
  obtain ⟨selected, -, rfl⟩ := List.mem_map.mp mem
  rw [Binary64.text, String.toList_ofList]
  exact isLine_of_rendered (Binary64.chars_rendered _)

/-- Whatever a formula draws, its replacement is the text of a plain value. -/
theorem isLine_apply (formula : Formula) (x : Binary64) (index : Nat) (draws : Draws) :
    IsLine (formula.apply x index draws).1.toList := by
  obtain ⟨value, rendered⟩ : ∃ value : Plain, (formula.apply x index draws).1 = value.text :=
    ⟨_, rfl⟩
  rw [rendered, Plain.text, String.toList_ofList]
  exact isLine_of_rendered value.chars_rendered

theorem mapFrom_cons (formula : Formula) (index : Nat) (text : String) (texts : List String)
    (draws : Draws) :
    (Selection.mapFrom formula index (text :: texts) draws).1 =
      (formula.apply (coerceNumber text) index draws).1 ::
        (Selection.mapFrom formula (index + 1) texts
          (formula.apply (coerceNumber text) index draws).2).1 :=
  rfl

theorem isLine_mapFrom (formula : Formula) (index : Nat) (texts : List String) (draws : Draws) :
    ∀ text ∈ (Selection.mapFrom formula index texts draws).1, IsLine text.toList := by
  induction texts generalizing index draws with
  | nil => exact List.forall_mem_nil _
  | cons text texts ih =>
    rw [mapFrom_cons]
    exact List.forall_mem_cons.mpr ⟨isLine_apply formula _ index draws, ih _ _⟩

theorem length_mapFrom (formula : Formula) (index : Nat) (texts : List String) (draws : Draws) :
    (Selection.mapFrom formula index texts draws).1.length = texts.length := by
  induction texts generalizing index draws with
  | nil => rfl
  | cons text texts ih => rw [mapFrom_cons, List.length_cons, List.length_cons, ih]

/-! ### Runs -/

/-- The texts that a command puts in the place of others, unless it only checks or its formula is
rejected. -/
def Command.replacements? (texts : List String) : Command → Option (Sampled (List String))
  | index => some (pure (Selection.index texts.length))
  | increment => some (pure (Selection.increment texts))
  | decrement => some (pure (Selection.decrement texts))
  | map formula => (Selection.map formula texts).toOption
  | check _ => none

variable {command : Command} {texts : List String} {replacements : Sampled (List String)}

/-- What a command puts in the place of texts are lines, one for each. -/
theorem isLine_replacements (found : command.replacements? texts = some replacements)
    (draws : Draws) : (replacements draws).1.length = texts.length ∧
      ∀ text ∈ (replacements draws).1, IsLine text.toList := by
  cases command with
  | index =>
    cases found
    exact ⟨(List.length_map _).trans List.length_range, isLine_index _⟩
  | increment =>
    cases found
    exact ⟨List.length_map _, isLine_step _ _⟩
  | decrement =>
    cases found
    exact ⟨List.length_map _, isLine_step _ _⟩
  | map source =>
    rw [Command.replacements?, Selection.map] at found
    cases parsed : Formula.parse source with
    | error rejection =>
      rw [parsed] at found
      cases found
    | ok formula =>
      rw [parsed] at found
      cases found
      exact ⟨length_mapFrom formula 0 texts draws, isLine_mapFrom formula 0 texts draws⟩
  | check formula => cases found

/-- A run with replacements is a successful one, and writes them on lines of their own. -/
theorem run_of_replacements {input : String}
    (found : command.replacements? (lines input) = some replacements) (draws : Draws) :
    (command.run input draws).1 = .success (unlines (replacements draws).1) := by
  cases command with
  | index | increment | decrement =>
    cases found
    rfl
  | map source =>
    rw [Command.replacements?] at found
    cases mapped : Selection.map source (lines input) with
    | error rejection =>
      rw [mapped] at found
      cases found
    | ok sampled =>
      rw [mapped] at found
      cases found
      rw [Command.run, mapped]
      rfl
  | check formula => cases found

/-- A command that reads its input and succeeds has replacements. -/
theorem exists_replacements {input : String} {draws : Draws} (reads : command.readsInput = true)
    (succeeds : (command.run input draws).1.exitCode = 0) :
    ∃ replacements, command.replacements? (lines input) = some replacements := by
  cases command with
  | index | increment | decrement => exact ⟨_, rfl⟩
  | map source =>
    cases mapped : Selection.map source (lines input) with
    | error rejection =>
      rw [Command.run, mapped] at succeeds
      cases succeeds
    | ok sampled => exact ⟨sampled, by rw [Command.replacements?, mapped]; rfl⟩
  | check formula => cases reads

/-- What a run with replacements writes is read as these again. -/
theorem lines_output {input : String}
    (found : command.replacements? (lines input) = some replacements) (draws : Draws) :
    lines (command.run input draws).1.output = (replacements draws).1 := by
  rw [run_of_replacements found draws]
  exact lines_unlines (isLine_replacements found draws).2

theorem replacements_map {source : String} {formula : Formula}
    (parsed : Formula.parse source = .ok formula) (calm : formula.isDeterministic = true)
    (texts : List String) : (Command.map source).replacements? texts =
      some (pure (formula.replacements texts)) := by
  rw [Command.replacements?, Selection.map_eq_replacements parsed calm]
  rfl

/-- A successful run writes a line for each that it reads: the texts that the command puts in their
place, as its output is split into lines again. Mapping a formula over the output of mapping
another one is mapping it over that one's replacements. -/
theorem lines_of_run :
    (∀ (command : Command) (input : String) (draws : Draws), command.readsInput = true →
      (command.run input draws).1.exitCode = 0 →
      ∃ replacements, command.replacements? (lines input) = some replacements ∧
        lines (command.run input draws).1.output = (replacements draws).1 ∧
        (replacements draws).1.length = (lines input).length) ∧
    ∀ (first second : String) (f g : Formula), Formula.parse first = .ok f →
      Formula.parse second = .ok g → f.isDeterministic = true → g.isDeterministic = true →
      ∀ input : String, ∃ inner outer : List String,
        Selection.map first (lines input) = .ok (pure inner) ∧
        Selection.map second inner = .ok (pure outer) ∧
        ∀ draws draws' : Draws,
          ((Command.map first).run input draws).1 = .success (unlines inner) ∧
          ((Command.map second).run ((Command.map first).run input draws).1.output draws').1 =
            .success (unlines outer) := by
  refine ⟨fun command input draws reads succeeds => ?_,
    fun first second f g parsed parsed' calm calm' input => ?_⟩
  · obtain ⟨replacements, found⟩ := exists_replacements reads succeeds
    exact ⟨replacements, found, lines_output found draws, (isLine_replacements found draws).1⟩
  · refine ⟨f.replacements (lines input), g.replacements (f.replacements (lines input)),
      Selection.map_eq_replacements parsed calm _, Selection.map_eq_replacements parsed' calm' _,
      fun draws draws' => ?_⟩
    have found := replacements_map parsed calm (lines input)
    have found' : (Command.map second).replacements?
        (lines ((Command.map first).run input draws).1.output) =
          some (pure (g.replacements (f.replacements (lines input)))) := by
      rw [lines_output found draws]
      exact replacements_map parsed' calm' _
    exact ⟨run_of_replacements found draws, run_of_replacements found' draws'⟩

/-- Lines with and without a carriage return, a blank one and one without a line feed; and a name
that is not bound, whose replacements are empty and count as zero in the next run. -/
theorem lines_of_run_emptyReplacements :
    Command.increment.readsInput = true ∧
    (Command.increment.run "41\r\n\nabc" (Draws.seeded 0)).1.exitCode = 0 ∧
    lines (Command.increment.run "41\r\n\nabc" (Draws.seeded 0)).1.output = ["42", "1", "NaN"] ∧
    Formula.parse "y" = .ok ⟨"y", .argument "y"⟩ ∧
    Formula.parse "x + 1" = .ok ⟨"x + 1", Selection.stepped .plus⟩ ∧
    ((Command.map "y").run "1\r\n\n2" (Draws.seeded 0)).1 = .success "\n\n\n" ∧
    ((Command.map "x + 1").run ((Command.map "y").run "1\r\n\n2" (Draws.seeded 0)).1.output
      (Draws.seeded 0)).1 = .success "1\n1\n1\n" := by
  have unbound : Formula.parse "y" = .ok ⟨"y", .argument "y"⟩ := by
    have name : Expr.read ['y'] = .ok (.argument "y") := Expr.read_argument (by decide)
    rw [Formula.parse, show "y".toList = ['y'] from rfl, name]
  have stepped : Formula.parse "x + 1" = .ok ⟨"x + 1", Selection.stepped .plus⟩ :=
    Selection.parse_stepped rfl rfl
  obtain ⟨replaced, composed⟩ := lines_of_run
  obtain ⟨replacements, found, read, -⟩ :=
    replaced .increment "41\r\n\nabc" (Draws.seeded 0) rfl rfl
  obtain ⟨inner, outer, first, second, runs⟩ :=
    composed "y" "x + 1" _ _ unbound stepped rfl rfl "1\r\n\n2"
  obtain ⟨run, run'⟩ := runs (Draws.seeded 0) (Draws.seeded 0)
  have blank : inner = ["", "", ""] := by
    rw [Selection.map_eq_replacements unbound rfl] at first
    rw [← eq_of_pure_eq (Except.ok.inj first)]
    decide +kernel
  have ones : outer = ["1", "1", "1"] := by
    rw [blank, Selection.map_eq_replacements stepped rfl] at second
    rw [← eq_of_pure_eq (Except.ok.inj second)]
    decide +kernel
  have raised : Selection.increment (lines "41\r\n\nabc") = ["42", "1", "NaN"] := by
    decide +kernel
  obtain rfl : pure (Selection.increment (lines "41\r\n\nabc")) = replacements :=
    Option.some.inj found
  rw [blank] at run
  rw [ones] at run'
  exact ⟨rfl, rfl, read.trans raised, unbound, stepped, run.trans (by decide +kernel),
    run'.trans (by decide +kernel)⟩

end CommandLine

end SelectionFormula
