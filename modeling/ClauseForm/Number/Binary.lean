/-!
# Binary floating-point values

A 64-bit binary floating-point value (`ClauseForm.Binary64.value`) is a sign, an
exponent of eleven bits and a fraction of 52 bits. Unless the exponent is the
largest one, it stands for a rational number, and nothing is rounded in saying
which.
-/

namespace ClauseForm

namespace Binary64

/-- The values that are no numbers. -/
inductive NonFinite where
  | nan
  | infinity
  | negInfinity
deriving DecidableEq, Repr, Inhabited

/-- How a value that is no number is written. -/
def NonFinite.text : NonFinite → String
  | nan => "NaN"
  | infinity => "inf"
  | negInfinity => "-inf"

/-- The number `m * 2 ^ e`. -/
def scale (m : Int) (e : Int) : Rat :=
  if 0 ≤ e then ((m * Int.pow 2 e.toNat : Int) : Rat) else mkRat m (Nat.pow 2 (-e).toNat)

/-- The number that a 64-bit pattern stands for: a fraction of 52 bits, with a leading one unless
the exponent field is zero, times a power of two. -/
def value (bits : UInt64) : Except NonFinite Rat :=
  let negative := bits.toNat / Nat.pow 2 63 = 1
  let exponent := bits.toNat / Nat.pow 2 52 % Nat.pow 2 11
  let fraction := bits.toNat % Nat.pow 2 52
  if exponent = Nat.pow 2 11 - 1 then
    .error (if fraction ≠ 0 then .nan else if negative then .negInfinity else .infinity)
  else
    let magnitude : Nat := if exponent = 0 then fraction else fraction + Nat.pow 2 52
    .ok (scale (if negative then -magnitude else magnitude) ((max exponent 1 : Nat) - 1075))

end Binary64

end ClauseForm
