import SelectionFormula.Text.Bracket

/-!
Where a token occurs outside all brackets.

Offsets are byte offsets. The forward search counts brackets from the left, the
character at hand included, so a closing bracket is already outside; the
backward search counts them from the right, so an opening bracket is. On a text
whose brackets nest the two agree everywhere else. The empty token occurs at
every byte.
-/

namespace SelectionFormula.Text

/-- The offsets at which a token occurs at the front of a text whose first
character is at an offset: every byte of that character for the empty token. -/
def hits (token : List Char) (offset : Nat) : List Char → List Nat
  | [] => []
  | c :: text =>
    if token = [] then List.range' offset c.utf8Size
    else if token.isPrefixOf (c :: text) then [offset]
    else []

/-- Top-level occurrences in the rest of a text, from an offset and a depth on. -/
def occurrencesFrom (token : List Char) : Int → Nat → List Char → List Nat
  | _, _, [] => []
  | depth, offset, c :: text =>
    let inside := depth + nesting c
    let later := occurrencesFrom token inside (offset + c.utf8Size) text
    if inside = 0 then hits token offset (c :: text) ++ later else later

/-- The offsets of all top-level occurrences of a token, left to right. -/
def occurrences (token text : List Char) : List Nat :=
  occurrencesFrom token 0 0 text

/-- The depth of a text counted from its right end, and the offset of the last
top-level occurrence of a token in it. -/
def lastFrom (token : List Char) : Nat → List Char → Int × Option Nat
  | _, [] => (0, none)
  | offset, c :: text =>
    let (depth, last?) := lastFrom token (offset + c.utf8Size) text
    let outside := depth - nesting c
    (outside, last? <|> if outside = 0 then (hits token offset (c :: text)).getLast? else none)

/-- The offset of the last top-level occurrence of a token. -/
def lastOccurrence? (token text : List Char) : Option Nat :=
  (lastFrom token 0 text).2

end SelectionFormula.Text
