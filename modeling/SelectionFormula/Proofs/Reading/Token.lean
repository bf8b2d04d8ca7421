import Mathlib
import SelectionFormula.Proofs.Reading.Derivation

/-!
The tokens of a text, and those of a tree.

`tokens` cuts a text into words and symbols without looking at its structure:
blanks and round parentheses are dropped, a word is as long as it can be, and so
is a symbol. `Expr.yield` lists the tokens of a tree from left to right. An
accepted text has the tokens of its tree, so reading neither loses nor repeats
nor moves anything.

* `tokens_append` — texts cut apart where no word and no symbol goes on.
* `tokens_of_derives` — what derives a tree has its tokens.
-/

namespace SelectionFormula

open Text

/-- A token of a formula's text. -/
inductive Token where
  /-- An operator, a bracket of a list, or a mark between operands. -/
  | symbol (text : String)
  /-- A name. -/
  | word (text : String)
  /-- A literal, as its value. -/
  | number (value : Binary64)
  /-- A character that begins none of the others. -/
  | stray (c : Char)

/-- The symbols of the language, none longer than one in front of it. -/
def symbols : List String :=
  [">>>", "||", "&&", "==", "<=", ">=", "<<", ">>", "**", "|", "^", "&", "<", ">", "+", "-", "*",
   "/", "%", "~", "!", "[", "]", ",", "?", ":"]

theorem symbols_sorted : symbols.Pairwise fun first later => later.length ≤ first.length := by
  decide

theorem UnaryOperator.symbol_mem (op : UnaryOperator) : op.symbol ∈ symbols := by
  cases op <;> decide

theorem BinaryOperator.symbol_mem (op : BinaryOperator) : op.symbol ∈ symbols := by
  cases op <;> decide

/-- The token of a word: its value when it is a literal. -/
def Token.ofWord (text : List Char) : Token :=
  match Literal.number? text with
  | some value => .number value
  | none => .word (String.ofList text)

/-- The longest symbol that a text begins with (`length_le_of_symbol?`). -/
def symbol? (text : List Char) : Option String :=
  symbols.find? fun symbol => symbol.toList.isPrefixOf text

theorem length_le_of_symbol? {text : List Char} {symbol other : String}
    (found : symbol? text = some symbol) (mem : other ∈ symbols) (front : other.toList <+: text) :
    other.length ≤ symbol.length := by
  obtain ⟨-, before, after, split, skipped⟩ := List.find?_eq_some_iff_append.mp found
  have sorted := symbols_sorted
  rw [split] at mem sorted
  rcases List.mem_append.mp mem with earlier | later
  · have := skipped other earlier
    rw [List.isPrefixOf_iff_prefix.mpr front] at this
    cases this
  · rcases List.mem_cons.mp later with rfl | later
    · exact Nat.le_refl _
    · exact (List.pairwise_cons.mp (List.pairwise_append.mp sorted).2.1).1 other later

/-- A character that is left out between tokens. -/
def isDropped (c : Char) : Bool :=
  isBlank c || c == '(' || c == ')'

/-- The tokens of a text, left to right. -/
def tokens : List Char → List Token
  | [] => []
  | c :: text =>
    if isDropped c then tokens text
    else if isWordChar c then
      Token.ofWord (c :: text.takeWhile isWordChar) :: tokens (text.dropWhile isWordChar)
    else
      match symbol? (c :: text) with
      | some symbol => .symbol symbol :: tokens (text.drop (symbol.length - 1))
      | none => .stray c :: tokens text
termination_by text => text.length
decreasing_by
  · exact Nat.lt_succ_self _
  · exact Nat.lt_succ_of_le (List.dropWhile_sublist _).length_le
  · exact Nat.lt_succ_of_le (List.drop_sublist _ _).length_le
  · exact Nat.lt_succ_self _

namespace Expr

mutual

/-- The tokens of a tree, left to right. -/
def yield : Expr → List Token
  | constant value => [.number value]
  | argument name => [.word name]
  | unary op operand => .symbol op.symbol :: operand.yield
  | binary op left right => left.yield ++ .symbol op.symbol :: right.yield
  | conditional condition yes no =>
    condition.yield ++ .symbol "?" :: yes.yield ++ .symbol ":" :: no.yield
  | array elements => .symbol "[" :: yieldItems elements ++ [.symbol "]"]
  | index items position => items.yield ++ .symbol "[" :: position.yield ++ [.symbol "]"]
  | call function arguments => .word function.name :: yieldItems arguments

/-- The tokens of the items of a list, a comma between two. -/
def yieldItems : List Expr → List Token
  | [] => []
  | e :: es => e.yield ++ yieldFurther es

/-- The tokens of the items behind the first one. -/
def yieldFurther : List Expr → List Token
  | [] => []
  | e :: es => .symbol "," :: e.yield ++ yieldFurther es

end

end Expr

/-! ### Where a text may be cut -/

/-- A character of the symbols that are longer than one character. -/
def isDoubled (c : Char) : Bool :=
  ['|', '&', '=', '<', '>', '*'].contains c

/-- Whether a token may go on from one character to the next. -/
def glues (a b : Char) : Bool :=
  isWordChar a && isWordChar b || isDoubled a && isDoubled b

/-- No token goes on from one text to the next. -/
def Apart (s t : List Char) : Prop :=
  ∀ a ∈ s.getLast?, ∀ b ∈ t.head?, glues a b = false

theorem isDoubled_of_mem_symbols : ∀ symbol ∈ symbols, 1 < symbol.length →
    ∀ c ∈ symbol.toList, isDoubled c = true := by
  simp [symbols, isDoubled, ← String.length_toList]

theorem ne_nil_of_mem_symbols : ∀ symbol ∈ symbols, symbol.toList ≠ [] := by
  decide

theorem isDropped_eq_false_of_isWordChar {c : Char} (word : isWordChar c = true) :
    isDropped c = false := by
  simp only [isDropped, Bool.or_eq_false_iff, beq_eq_false_iff_ne, ne_eq]
  refine ⟨⟨isBlank_eq_false_of_isWordChar word, ?_⟩, ?_⟩ <;>
    (rintro rfl; exact absurd word (by decide))

theorem Apart.of_suffix {r s t : List Char} (apart : Apart s t) (suffix : r <:+ s) :
    Apart r t := by
  intro a last b head
  obtain ⟨front, rfl⟩ := suffix
  refine apart a ?_ b head
  rw [List.getLast?_append, last]
  rfl

section Apart

variable {c : Char} {s t : List Char}

/-- A word ends with the text that it is in. -/
theorem word_append (word : isWordChar c = true) (apart : Apart (c :: s) t) :
    (s ++ t).takeWhile isWordChar = s.takeWhile isWordChar ∧
      (s ++ t).dropWhile isWordChar = s.dropWhile isWordChar ++ t := by
  induction s generalizing c with
  | nil =>
    cases t with
    | nil => exact ⟨rfl, rfl⟩
    | cons b t =>
      have ends := apart c rfl b rfl
      rw [glues, word, Bool.true_and, Bool.or_eq_false_iff] at ends
      exact ⟨List.takeWhile_cons_of_neg (by simp [ends.1]),
        List.dropWhile_cons_of_neg (by simp [ends.1])⟩
  | cons d s ih =>
    rw [List.cons_append]
    by_cases word' : isWordChar d = true
    · obtain ⟨taken, dropped⟩ := ih word' (apart.of_suffix (List.suffix_cons c (d :: s)))
      rw [List.takeWhile_cons_of_pos word', List.takeWhile_cons_of_pos word',
        List.dropWhile_cons_of_pos word', List.dropWhile_cons_of_pos word', taken, dropped]
      exact ⟨rfl, rfl⟩
    · rw [List.takeWhile_cons_of_neg word', List.takeWhile_cons_of_neg word',
        List.dropWhile_cons_of_neg word', List.dropWhile_cons_of_neg word']
      exact ⟨rfl, rfl⟩

/-- A symbol ends with the text that it is in. -/
theorem isPrefix_append_iff {symbol : String} (mem : symbol ∈ symbols) (apart : Apart (c :: s) t) :
    symbol.toList <+: c :: s ++ t ↔ symbol.toList <+: c :: s := by
  constructor
  · intro front
    rcases isPrefix_append_cases front with inside | ⟨d, u, split, head⟩
    · exact inside
    exfalso
    have long : 1 < symbol.length := by
      rw [← String.length_toList, split, List.length_append, List.length_cons, List.length_cons]
      omega
    have doubled := isDoubled_of_mem_symbols symbol mem long
    have last := apart _ (List.getLast?_eq_some_getLast (List.cons_ne_nil c s)) d head
    rw [glues, doubled d (by simp [split]),
      doubled _ (by rw [split]; exact List.mem_append_left _ (List.getLast_mem _)),
      Bool.and_self, Bool.or_true] at last
    cases last
  · intro front
    exact front.trans (List.prefix_append _ t)

theorem symbol?_append (apart : Apart (c :: s) t) : symbol? (c :: s ++ t) = symbol? (c :: s) := by
  have same : ∀ symbol ∈ symbols,
      symbol.toList.isPrefixOf (c :: s ++ t) = symbol.toList.isPrefixOf (c :: s) := by
    intro symbol mem
    rw [Bool.eq_iff_iff, List.isPrefixOf_iff_prefix, List.isPrefixOf_iff_prefix]
    exact isPrefix_append_iff mem apart
  exact List.find?_congr same

/-- A symbol that is found is there. -/
theorem isPrefix_of_symbol? {symbol : String} (found : symbol? s = some symbol) :
    symbol ∈ symbols ∧ symbol.toList <+: s :=
  have front : symbol.toList.isPrefixOf s = true := by
    simpa using List.find?_some found
  ⟨List.mem_of_find?_eq_some found, List.isPrefixOf_iff_prefix.mp front⟩

theorem tokens_append (apart : Apart s t) : tokens (s ++ t) = tokens s ++ tokens t := by
  fun_induction tokens s with
  | case1 => rfl
  | case2 c s dropped ih =>
    rw [List.cons_append, tokens, if_pos dropped, ih (apart.of_suffix (List.suffix_cons c s))]
  | case3 c s kept word ih =>
    obtain ⟨taken, dropped⟩ := word_append word apart
    have rest := ih (apart.of_suffix
      ((List.dropWhile_suffix isWordChar).trans (List.suffix_cons c s)))
    rw [List.cons_append, tokens, if_neg kept, if_pos word, taken, dropped, rest, List.cons_append]
  | case4 c s kept other symbol found ih =>
    have rest := ih (apart.of_suffix ((List.drop_suffix _ s).trans (List.suffix_cons c s)))
    have inside : symbol.length - 1 ≤ s.length := by
      have := (isPrefix_of_symbol? found).2.length_le
      rw [String.length_toList, List.length_cons] at this
      omega
    rw [List.cons_append, tokens, if_neg kept, if_neg other, ← List.cons_append,
      symbol?_append apart, found]
    dsimp only
    rw [List.drop_append_of_le_length inside, rest, List.cons_append]
  | case5 c s kept other unknown ih =>
    have rest := ih (apart.of_suffix (List.suffix_cons c s))
    rw [List.cons_append, tokens, if_neg kept, if_neg other, ← List.cons_append,
      symbol?_append apart, unknown]
    dsimp only
    rw [rest, List.cons_append]

end Apart

/-! ### Cutting a text at a symbol -/

/-- A character that no token shares with the characters around it. -/
def isLoose (c : Char) : Bool :=
  !isWordChar c && !isDoubled c

theorem isLoose_of_isBlank {c : Char} (blank : isBlank c = true) : isLoose c = true := by
  have word : isWordChar c = false := by
    by_contra word
    rw [isBlank_eq_false_of_isWordChar (by simpa using word)] at blank
    cases blank
  rw [isLoose, word, isDoubled, contains_eq_false (by decide) blank]
  rfl

theorem apart_of_loose_left {s t : List Char} (loose : ∀ a ∈ s.getLast?, isLoose a = true) :
    Apart s t := by
  intro a last b _
  have := loose a last
  simp only [isLoose, Bool.and_eq_true, Bool.not_eq_true'] at this
  simp [glues, this]

theorem apart_of_loose_right {s t : List Char} (loose : ∀ b ∈ t.head?, isLoose b = true) :
    Apart s t := by
  intro a _ b head
  have := loose b head
  simp only [isLoose, Bool.and_eq_true, Bool.not_eq_true'] at this
  simp [glues, this]

/-- No character of a symbol is of a word, or left out. -/
theorem kept_of_mem_symbols : ∀ symbol ∈ symbols, ∀ c ∈ symbol.toList,
    isWordChar c = false ∧ isDropped c = false := by
  have table : (symbols.all fun symbol => symbol.toList.all fun c =>
      !isWordChar c && !isDropped c) = true := by decide
  intro symbol mem c inside
  simpa using List.all_eq_true.mp (List.all_eq_true.mp table symbol mem) c inside

theorem symbol?_symbol : ∀ symbol ∈ symbols, symbol? symbol.toList = some symbol := by
  decide

theorem tokens_symbol : ∀ symbol ∈ symbols, tokens symbol.toList = [.symbol symbol] := by
  intro symbol mem
  obtain ⟨c, rest, chars⟩ := List.exists_cons_of_ne_nil (ne_nil_of_mem_symbols symbol mem)
  have inside : c ∈ symbol.toList := by simp [chars]
  obtain ⟨word, kept⟩ := kept_of_mem_symbols symbol mem c inside
  have found := symbol?_symbol symbol mem
  have whole : rest.drop (symbol.length - 1) = [] := by
    rw [← String.length_toList, chars]
    simp
  rw [chars] at found ⊢
  rw [tokens, if_neg (by simp [kept]), if_neg (by simp [word]), found]
  dsimp only
  rw [whole, tokens]

/-- A loose character is cut out of a text as it stands. -/
theorem tokens_loose {c : Char} (loose : isLoose c = true) (s t : List Char) :
    tokens (s ++ c :: t) = tokens s ++ tokens [c] ++ tokens t := by
  have front : Apart s (c :: t) := apart_of_loose_right (by simpa using loose)
  have behind : Apart [c] t := apart_of_loose_left (by simpa using loose)
  rw [tokens_append front, List.append_assoc, ← tokens_append behind]
  rfl

/-- A loose symbol is a token wherever it stands. -/
theorem tokens_mark (c : Char) (symbol : String) (mem : symbol ∈ symbols)
    (chars : symbol.toList = [c]) (loose : isLoose c = true) (s t : List Char) :
    tokens (s ++ c :: t) = tokens s ++ .symbol symbol :: tokens t := by
  have mark := tokens_symbol symbol mem
  rw [chars] at mark
  rw [tokens_loose loose, mark, List.append_assoc, List.singleton_append]

/-- A round parenthesis leaves no token behind. -/
theorem tokens_parenthesis {c : Char} (round : c = '(' ∨ c = ')') (s t : List Char) :
    tokens (s ++ c :: t) = tokens s ++ tokens t := by
  have none : isLoose c = true ∧ tokens [c] = [] := by
    rcases round with rfl | rfl <;> exact ⟨rfl, by simp [tokens, isDropped]⟩
  rw [tokens_loose none.1, none.2, List.append_nil]

theorem tokens_allBlank {text : List Char} (blank : AllBlank text) : tokens text = [] := by
  induction text with
  | nil => rw [tokens]
  | cons c text ih =>
    have dropped : isDropped c = true := by simp [isDropped, blank c]
    rw [tokens, if_pos dropped]
    exact ih fun d mem => blank d (List.mem_cons_of_mem c mem)

theorem tokens_pad {lead text trail : List Char} (leading : AllBlank lead)
    (trailing : AllBlank trail) : tokens (lead ++ text ++ trail) = tokens text := by
  have front : Apart lead text :=
    apart_of_loose_left fun a last => isLoose_of_isBlank (leading a (List.mem_of_getLast? last))
  have behind : Apart (lead ++ text) trail :=
    apart_of_loose_right fun b head => isLoose_of_isBlank (trailing b (List.mem_of_head? head))
  rw [tokens_append behind, tokens_append front, tokens_allBlank leading,
    tokens_allBlank trailing, List.nil_append, List.append_nil]

/-- No symbol goes on into a text that can be an operand. -/
theorem Opens.apart {s t : List Char} (opens : Opens t)
    (symbol : ∀ a ∈ s.getLast?, isWordChar a = false) : Apart s t := by
  intro a last b head
  have single : isDoubled b = false := by
    rcases opens.head b head with blank | opening
    · exact contains_eq_false (by decide) blank
    · exact contains_eq_false (by decide) opening
  simp [glues, single, symbol a last]

theorem Closes.apart {s t : List Char} (closes : Closes s)
    (symbol : ∀ b ∈ t.head?, isWordChar b = false) : Apart s t := by
  intro a last b head
  have single : isDoubled a = false := by
    rcases closes.last a last with blank | closing
    · exact contains_eq_false (by decide) blank
    · exact contains_eq_false (by decide) closing
  simp [glues, single, symbol b head]

/-- A symbol in front of an operand is a token. -/
theorem tokens_front {symbol : String} (mem : symbol ∈ symbols) {t : List Char}
    (opens : Opens t) : tokens (symbol.toList ++ t) = .symbol symbol :: tokens t := by
  have apart : Apart symbol.toList t := opens.apart fun a last =>
    (kept_of_mem_symbols symbol mem a (List.mem_of_getLast? last)).1
  rw [tokens_append apart, tokens_symbol symbol mem, List.singleton_append]

/-- A symbol between two operands is a token. -/
theorem tokens_between {symbol : String} (mem : symbol ∈ symbols) {s t : List Char}
    (closes : Closes s) (opens : Opens t) :
    tokens (s ++ symbol.toList ++ t) = tokens s ++ .symbol symbol :: tokens t := by
  have apart : Apart s (symbol.toList ++ t) := by
    refine closes.apart fun b head => ?_
    obtain ⟨c, rest, chars⟩ := List.exists_cons_of_ne_nil (ne_nil_of_mem_symbols symbol mem)
    rw [chars] at head
    cases Option.some.inj head
    exact (kept_of_mem_symbols symbol mem b (by simp [chars])).1
  rw [List.append_assoc, tokens_append apart, tokens_front mem opens]

/-! ### A derivation's tokens -/

theorem tokens_wordChars {text : List Char} (nonempty : text ≠ [])
    (words : ∀ c ∈ text, isWordChar c = true) : tokens text = [Token.ofWord text] := by
  obtain ⟨c, rest, rfl⟩ := List.exists_cons_of_ne_nil nonempty
  have word := words c List.mem_cons_self
  have run : ∀ d ∈ rest, isWordChar d = true := fun d mem => words d (List.mem_cons_of_mem c mem)
  have kept := isDropped_eq_false_of_isWordChar word
  rw [tokens, if_neg (by simp [kept]), if_pos word, List.takeWhile_eq_self_iff.mpr run,
    List.dropWhile_eq_nil_iff.mpr run, tokens]

theorem tokens_listed {items : List (List Char × Expr)}
    (same : ∀ item ∈ items, tokens item.1 = item.2.yield) :
    tokens (listed (items.map (·.1))) = Expr.yieldItems (items.map (·.2)) := by
  cases items with
  | nil => rw [List.map_nil, listed, tokens, List.map_nil, Expr.yieldItems]
  | cons first later =>
    rw [List.map_cons, listed, List.map_cons]
    induction later generalizing first with
    | nil =>
      rw [List.map_nil, joined_nil, same first List.mem_cons_self, List.map_nil, Expr.yieldItems,
        Expr.yieldFurther, List.append_nil]
    | cons next later ih =>
      have further := ih next fun item mem => same item (List.mem_cons_of_mem first mem)
      rw [List.map_cons, joined_cons, tokens_mark ',' "," (by decide) rfl rfl,
        same first List.mem_cons_self, further]
      simp only [List.map_cons, Expr.yieldItems, Expr.yieldFurther, List.cons_append]

/-- What derives a tree has its tokens. -/
theorem tokens_of_derives {text : List Char} {e : Expr} (derives : Derives text e) :
    tokens text = e.yield := by
  induction derives with
  | padded leading trailing _ ih => rw [tokens_pad leading trailing, ih]
  | @constant text value accepted words =>
    have nonempty : text ≠ [] := by
      rintro rfl
      exact nomatch number?_nil.symm.trans accepted
    rw [tokens_wordChars nonempty words, Token.ofWord, accepted, Expr.yield]
  | argument isName =>
    obtain ⟨nonempty, words⟩ :=
      wordChars_of_isFunctionName (isFunctionName_of_isArgumentName isName)
    rw [tokens_wordChars nonempty words, Token.ofWord, Literal.number?_of_isArgumentName isName,
      Expr.yield]
  | @unary op _ _ op_ne part ih =>
    rw [tokens_front op.symbol_mem part.opens, ih, Expr.yield]
  | @binary op _ _ _ _ _ left right ihl ihr =>
    rw [tokens_between op.symbol_mem left.closes right.opens, ihl, ihr, Expr.yield]
  | conditional _ _ _ condition yes no =>
    rw [List.append_assoc, List.cons_append, tokens_mark '?' "?" (by decide) rfl rfl,
      tokens_mark ':' ":" (by decide) rfl rfl, condition, yes, no]
    simp only [Expr.yield, List.append_assoc, List.cons_append]
  | @group inner e _ ih =>
    have opener := tokens_parenthesis (.inl rfl) [] (inner ++ [')'])
    have closer := tokens_parenthesis (.inr rfl) inner []
    rw [List.nil_append] at opener
    rw [List.cons_append, opener, closer, ih, tokens, List.nil_append, List.append_nil]
  | @array items _ ih =>
    have opener := tokens_mark '[' "[" (by decide) rfl rfl [] (listed (items.map (·.1)) ++ [']'])
    rw [List.nil_append] at opener
    rw [List.cons_append, opener, tokens_mark ']' "]" (by decide) rfl rfl, tokens_listed ih, tokens,
      List.nil_append, Expr.yield, List.cons_append]
  | index _ _ items position =>
    rw [List.append_assoc, List.cons_append, tokens_mark '[' "[" (by decide) rfl rfl,
      tokens_mark ']' "]" (by decide) rfl rfl, items, position, tokens]
    simp only [Expr.yield, List.append_assoc, List.cons_append]
  | @call name function items isName found _ _ ih =>
    have spelled : function.name = String.ofList name := by
      simpa using List.find?_some found
    have isArgument : isArgumentName name = true := by
      have := function.isArgumentName_name
      rwa [spelled, String.toList_ofList] at this
    obtain ⟨nonempty, words⟩ := wordChars_of_isFunctionName isName
    have word : tokens name = [.word function.name] := by
      rw [tokens_wordChars nonempty words, Token.ofWord,
        Literal.number?_of_isArgumentName isArgument, spelled]
    rw [List.append_assoc, List.cons_append, tokens_parenthesis (.inl rfl),
      tokens_parenthesis (.inr rfl), tokens_listed ih, word, tokens, List.append_nil, Expr.yield,
      List.singleton_append]

/-- An accepted text has the tokens of its tree. -/
theorem tokens_of_read {text : String} {e : Expr} (accepted : Expr.read text.toList = .ok e) :
    tokens text.toList = e.yield :=
  tokens_of_derives (Expr.derives_of_read accepted)

/-- The last `*` of the text is half of a token, and the parentheses are of two kinds. -/
theorem tokens_of_read_power :
    Expr.read " max(x, (i))**~x ".toList = .ok (.binary .power
        (.call .max [.argument "x", .argument "i"]) (.unary .complement (.argument "x"))) ∧
      tokens " max(x, (i))**~x ".toList = (Expr.binary .power
        (.call .max [.argument "x", .argument "i"])
        (.unary .complement (.argument "x"))).yield := by
  have accepted : Expr.read " max(x, (i))**~x ".toList = .ok (.binary .power
      (.call .max [.argument "x", .argument "i"]) (.unary .complement (.argument "x"))) := by
    cbv
  exact ⟨accepted, tokens_of_read accepted⟩

end SelectionFormula
