/-!
Names of arguments and of functions, in ASCII letters, digits and underscores.
-/

namespace SelectionFormula

/-- A character that may stand inside a name. -/
def isNameChar (c : Char) : Bool :=
  c.isAlphanum || c == '_'

/-- A character that may begin an argument's name. -/
def isNameStart (c : Char) : Bool :=
  c.isAlpha || c == '_'

/-- An argument's name: it does not begin with a digit. -/
def isArgumentName : List Char → Bool
  | [] => false
  | c :: text => isNameStart c && text.all isNameChar

/-- What may stand in front of a call's parenthesis: a digit may come first. -/
def isFunctionName (text : List Char) : Bool :=
  !text.isEmpty && text.all isNameChar

theorem isFunctionName_of_isArgumentName {text : List Char}
    (isName : isArgumentName text = true) : isFunctionName text = true := by
  cases text with
  | nil => simp [isArgumentName] at isName
  | cons c text =>
    simp only [isArgumentName, isNameStart, Bool.and_eq_true, Bool.or_eq_true] at isName
    simp only [isFunctionName, isNameChar, List.isEmpty_cons, List.all_cons, Char.isAlphanum,
      Bool.and_eq_true, Bool.or_eq_true, Bool.not_false, true_and]
    exact ⟨isName.1.imp_left .inl, by simpa [isNameChar, Char.isAlphanum] using isName.2⟩

end SelectionFormula
