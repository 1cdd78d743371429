import ClauseForm.Operator

/-!
# Faults

What can go wrong in a rule of this library. Every rule relies on the argument
counts that `ClauseForm.Op.takes` states, but a term may be built without them
being checked. A rule that meets such a term stops with a `ClauseForm.Fault`; on
terms that keep the counts no fault arises.
-/

namespace ClauseForm

/-- Why a rule stopped without an answer. -/
inductive Fault where
  /-- An operator stands over a number of arguments that it does not take. -/
  | arity (op : Op) (found : Nat)
  /-- The argument at `index` was asked for, but there are only `found`. -/
  | missingArgument (found index : Nat)
  /-- A pending step did not find the finished terms that it was to put together. -/
  | missingResult
  /-- The formulas that define new symbols were nested deeper than allowed for. -/
  | nesting
  /-- A quantifier was to be rebuilt without a body. -/
  | noBody (q : Quantifier)
  /-- A term without arguments was to be rebuilt with some. -/
  | leafArguments
deriving DecidableEq, Repr, Inhabited

namespace Fault

/-- The wording of a fault that is found in rebuilding a term; the others have none. -/
def message? : Fault → Option String
  | noBody q => some s!"quantifier {q.symbol} needs a body"
  | leafArguments => some "leaf terms have no arguments"
  | _ => none

end Fault

end ClauseForm
