import ClauseForm.Term.Basic

/-!
# Free variables and the universal closure

The free variables of a term (`ClauseForm.Term.freeVars`), each once, in the order
of their first free occurrence from left to right. The universal closure
(`ClauseForm.Term.universalClosure`) binds them all, in that order.
-/

namespace ClauseForm

namespace Term

mutual

/-- Appends to `seen` the variables that occur in a term, are not among `bound` and are not yet
listed. -/
def collectFree (bound : List Var) : Term → List Var → List Var
  | .var v, seen => if v ∈ bound ∨ v ∈ seen then seen else seen ++ [v]
  | .call _ args, seen => collectFreeAll bound args seen
  | .node _ args, seen => collectFreeAll bound args seen
  | .quant _ vars body, seen => collectFree (bound ++ vars) body seen
  | _, seen => seen

/-- Appends to `seen` the free variables of several terms, from left to right. -/
def collectFreeAll (bound : List Var) : List Term → List Var → List Var
  | [], seen => seen
  | t :: ts, seen => collectFreeAll bound ts (collectFree bound t seen)

end

/-- The variables that occur free in a term, in the order of their first free occurrence. -/
def freeVars (t : Term) : List Var :=
  collectFree [] t []

/-- The formula with its free variables bound universally; a formula without any stays as it is. -/
def universalClosure (t : Term) : Term :=
  match t.freeVars with
  | [] => t
  | vars => .quant .all vars t

end Term

end ClauseForm
