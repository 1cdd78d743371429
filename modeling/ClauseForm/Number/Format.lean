import ClauseForm.Number.Literal

/-!
# Formats of numbers

A format (`ClauseForm.NumberFormat`) says how integers and rational numbers are
written, and what texts are read as which of them. Real numbers are written and
read by way of it: as decimals where they are integers, and otherwise as rational
numbers are. The format in use is base ten (`ClauseForm.NumberFormat.baseTen`).
-/

namespace ClauseForm

/-- How integers and rational numbers are written and read. -/
structure NumberFormat where
  /-- The text of an integer. -/
  integerText : Int → String
  /-- The text of a rational number. -/
  rationalText : Rat → String
  /-- The integer that a text denotes. -/
  integer? : List Char → Option Int
  /-- The rational number that a text denotes. -/
  rational? : List Char → Option Rat

namespace NumberFormat

/-- The text of a real number: like that of a rational one, but with a point behind an integer. -/
def realText (F : NumberFormat) (x : Rat) : String :=
  if x.den = 1 then F.rationalText x ++ ".0" else F.rationalText x

/-- Integers and reduced fractions in base ten; a fraction with the denominator 1 is its numerator
alone. -/
def baseTen : NumberFormat where
  integerText n := toString n
  rationalText x := if x.den = 1 then toString x.num else s!"{x.num}/{x.den}"
  integer? := Literal.integer?
  rational? := Literal.rational?

end NumberFormat

end ClauseForm
