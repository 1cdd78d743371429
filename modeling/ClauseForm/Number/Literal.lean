import ClauseForm.Text.Blank

/-!
# Numeric literals

What texts denote numbers, and which ones. An integer
(`ClauseForm.Literal.integer?`) is an optional sign and digits, between which and
after which underscores may stand; a rational number
(`ClauseForm.Literal.rational?`) is an integer, or two with a slash between them;
a decimal (`ClauseForm.Literal.decimal?`) has an optional point and an optional
power of ten. Every value is exact.

Only the digits of ASCII count as digits. Blanks at the ends of a text are not
part of a literal: cut them off first (`ClauseForm.Text.trim`).
-/

namespace ClauseForm

namespace Literal

/-! ### Digits -/

/-- The value of a digit. -/
def digitValue (c : Char) : Nat :=
  c.toNat - '0'.toNat

/-- The number that a string of digits denotes in base ten. -/
def digitsValue (cs : List Char) : Nat :=
  cs.foldl (fun n c => 10 * n + digitValue c) 0

/-- The text before the first character that `p` accepts, and, if there is one, the text behind
it. -/
def cut (p : Char → Bool) : List Char → List Char × Option (List Char)
  | [] => ([], none)
  | c :: cs => if p c then ([], some cs) else ((c :: (cut p cs).1), (cut p cs).2)

/-- A text without its sign, and whether that sign is a minus. -/
def unsigned : List Char → Bool × List Char
  | '-' :: cs => (true, cs)
  | '+' :: cs => (false, cs)
  | cs => (false, cs)

/-- The number with a given absolute value that is negative or not. -/
def withSign (negative : Bool) (n : Nat) : Int :=
  if negative then -(n : Int) else n

/-! ### Integers -/

/-- The number that a nonempty string of digits denotes; underscores may stand after the first
digit, and do not count. -/
def natural? : List Char → Option Nat
  | [] => none
  | c :: cs =>
    if c.isDigit && cs.all (fun d => d.isDigit || d == '_') then
      some (digitsValue ((c :: cs).filter (· != '_')))
    else none

/-- The number that an optional sign and digits denote. -/
def integer? (cs : List Char) : Option Int :=
  (natural? (unsigned cs).2).map (withSign (unsigned cs).1)

/-! ### Rational numbers -/

/-- The number that an integer denotes, or a numerator and a denominator other than zero. -/
def rational? (cs : List Char) : Option Rat :=
  match cut (· == '/') cs with
  | (num, none) => (integer? num).map fun n => (n : Rat)
  | (num, some den) =>
    match integer? num, integer? den with
    | some n, some d => if d = 0 then none else some (Rat.divInt n d)
    | _, _ => none

/-! ### Decimals -/

/-- The largest power of ten that a decimal may be scaled by, either way. -/
def maxScale : Nat :=
  65536

/-- The number that an optional sign and digits denote, if it fits 64 bits. No underscores are
allowed here. -/
def exponent? (cs : List Char) : Option Int :=
  let digits := (unsigned cs).2
  if digits.isEmpty || !digits.all Char.isDigit then none
  else
    let n := withSign (unsigned cs).1 (digitsValue digits)
    if -Int.pow 2 63 ≤ n ∧ n < Int.pow 2 63 then some n else none

/-- The number `n * 10 ^ e`. -/
def scale (n : Int) (e : Int) : Rat :=
  if 0 ≤ e then ((n * Int.pow 10 e.toNat : Int) : Rat) else mkRat n (Nat.pow 10 (-e).toNat)

/-- The number that a sign and digits with at most one point denote, times a power of ten. -/
def fixed? (cs : List Char) (exponent : Int) : Option Rat :=
  let (negative, digits) := unsigned cs
  let (whole, behind) := cut (· == '.') digits
  let fraction := behind.getD []
  let shift := exponent - fraction.length
  if (whole ++ fraction).isEmpty || !(whole ++ fraction).all Char.isDigit ||
      maxScale < shift.natAbs then none
  else some (scale (withSign negative (digitsValue (whole ++ fraction))) shift)

/-- The number that a decimal denotes: a sign and digits with at most one point, and an optional
exponent behind an `e` of either case. -/
def decimal? (cs : List Char) : Option Rat :=
  match cut (fun c => c == 'e' || c == 'E') cs with
  | (mantissa, none) => fixed? mantissa 0
  | (mantissa, some exponent) => (exponent? exponent).bind (fixed? mantissa)

end Literal

end ClauseForm
