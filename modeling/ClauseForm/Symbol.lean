/-!
# Variables and function symbols

The identities that formulas are built over. A variable
(`ClauseForm.Var`) and a function symbol (`ClauseForm.FunSym`) are numbers, not
names: two symbols shown under one name are still two symbols. Which names they
are shown under is the business of `ClauseForm.Vocabulary`.

A function symbol also carries its origin (`ClauseForm.Origin`): a symbol that
the conversion introduces – a Skolem function, or the name of a subformula – may
be renamed when two results are compared, a declared one may not.
-/

namespace ClauseForm

/-- A variable, equal only to itself. -/
structure Var where
  /-- The place of the variable among all variables allotted. -/
  id : Nat
deriving DecidableEq, Repr, Inhabited

/-- Where a function symbol came from. -/
inductive Origin where
  /-- Declared by the one who states the formulas. -/
  | declared
  /-- Introduced for an existentially bound variable. -/
  | skolem
  /-- Introduced as the name of a subformula. -/
  | definition
deriving DecidableEq, Repr, Inhabited

namespace Origin

/-- Whether the conversion, rather than the one who states the formulas, introduced the symbol. -/
def isGenerated : Origin → Bool
  | declared => false
  | skolem | definition => true

end Origin

/-- A function symbol. Two symbols are equal when both number and origin agree. -/
structure FunSym where
  /-- The place of the symbol among all function symbols allotted. -/
  id : Nat
  /-- Who introduced the symbol. -/
  origin : Origin := .declared
deriving DecidableEq, Repr, Inhabited

end ClauseForm
