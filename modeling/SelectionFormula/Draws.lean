import SelectionFormula.Binary64.Rounding

/-!
The random source: an endless sequence of numbers, taken one after the other.

A computation that may draw is a `Sampled` one. It gets the source and hands it
on, so what was drawn can be read off the count of numbers used.
-/

namespace SelectionFormula

/-- A sequence of numbers and how many of them are used up. -/
structure Draws where
  sequence : Nat → Binary64
  used : Nat

/-- A computation that may draw random numbers. -/
abbrev Sampled := StateM Draws

/-- A step leaves the source where the next one takes it up. -/
theorem bind_apply {α β : Type} (first : Sampled α) (rest : α → Sampled β) (draws : Draws) :
    (first >>= rest) draws = rest (first draws).1 (first draws).2 :=
  rfl

/-- Take the next number. -/
def draw : Sampled Binary64 := do
  let draws ← get
  set { draws with used := draws.used + 1 }
  return draws.sequence draws.used

namespace Draws

/-- Spread the bits of a word: two rounds of folding the high bits down and
multiplying by an odd number. -/
def scramble (word : UInt64) : UInt64 :=
  let word := (word ^^^ (word >>> 30)) * 0xBF58476D1CE4E5B9
  let word := (word ^^^ (word >>> 27)) * 0x94D049BB133111EB
  word ^^^ (word >>> 31)

/-- The number in the unit interval that the leading 53 bits of a word count in
steps of `2 ^ -53`. -/
def fraction (word : UInt64) : Binary64 :=
  Binary64.ofRat false (((word >>> 11).toNat : Rat) / 9007199254740992)

/-- The source that a seed determines. -/
def seeded (seed : UInt64) : Draws where
  sequence n := fraction (scramble (seed + (n + 1).toUInt64 * 0x9E3779B97F4A7C15))
  used := 0

end Draws

end SelectionFormula
