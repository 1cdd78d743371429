import ClauseForm.Term.Basic

/-!
# Comparing numbers

Two numbers of one kind – both integers, both rational, both real – are compared
by value (`ClauseForm.Term.compare?`). Numbers of different kinds are not
compared, even where their values would be.
-/

namespace ClauseForm

namespace Term

/-- How the values of two numbers of one kind compare. -/
def compare? : Term → Term → Option Ordering
  | .integer m, .integer n => some (compareOfLessAndEq m n)
  | .rational x, .rational y => some (compareOfLessAndEq x y)
  | .real x, .real y => some (compareOfLessAndEq x y)
  | _, _ => none

/-- Whether one number is less than another of its kind. -/
def lt? (s t : Term) : Option Bool :=
  (compare? s t).map Ordering.isLT

/-- Whether one number is at most another of its kind. -/
def le? (s t : Term) : Option Bool :=
  (compare? s t).map Ordering.isLE

/-- Whether one number is greater than another of its kind. -/
def gt? (s t : Term) : Option Bool :=
  (compare? s t).map Ordering.isGT

/-- Whether one number is at least another of its kind. -/
def ge? (s t : Term) : Option Bool :=
  (compare? s t).map Ordering.isGE

/-- What an ordering predicate says of two numbers of one kind; other operators say nothing. -/
def decide? : Op → Term → Term → Option Bool
  | .less, s, t => lt? s t
  | .lessEq, s, t => le? s t
  | .greater, s, t => gt? s t
  | .greaterEq, s, t => ge? s t
  | _, _, _ => none

end Term

end ClauseForm
