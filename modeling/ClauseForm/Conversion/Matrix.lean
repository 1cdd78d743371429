import ClauseForm.Bindings
import ClauseForm.Conversion.State

/-!
# The matrix of a formula

`ClauseForm.matrix` takes the quantifiers away from a formula in negation normal
form. A universally bound variable becomes a fresh variable, shown under the same
name. An existentially bound one becomes a Skolem term: a new function symbol over
the fresh variables of the universal quantifiers around it, outermost first, those
included that an inner quantifier hides. All variables that one existential
quantifier binds get the same arguments.

What the bound variables stand for is kept in a scope, newest binding first, so
that a variable bound twice stands for what the inner quantifier made of it.
-/

namespace ClauseForm

/-- What bound variables stand for. -/
abbrev Scope :=
  Bindings Var Term

namespace Scope

/-- The variables among what the bound variables stand for, in the order of binding. -/
def universals (scope : Scope) : List Term :=
  scope.values.filter Term.isVar

/-- The scope inside a universal quantifier: each variable stands for a fresh one. -/
def bindFresh : List Var → Scope → ConvertM Scope
  | [], scope => return scope
  | v :: vars, scope => do
    let fresh ← ConvertM.freshLike v
    bindFresh vars (scope.add v (.var fresh))

/-- The scope inside an existential quantifier: each variable stands for a new function over
`args`. -/
def bindSkolem (args : List Term) : List Var → Scope → ConvertM Scope
  | [], scope => return scope
  | v :: vars, scope => do
    let f ← ConvertM.newSkolem
    bindSkolem args vars (scope.add v (f.appliedTo args))

end Scope

mutual

/-- The formula without its quantifiers, in which bound variables are replaced by what they stand
for. -/
def matrix : Term → Scope → ConvertM Term
  | .var v, scope => return (scope.get? v).getD (.var v)
  | .call f args, scope => do
    ConvertM.ofExcept ((Term.call f args).withArgs (← matrixAll args scope))
  | .node op args, scope => do
    ConvertM.ofExcept ((Term.node op args).withArgs (← matrixAll args scope))
  | .quant .all vars body, scope => do
    matrix body (← scope.bindFresh vars)
  | .quant .exist vars body, scope => do
    matrix body (← scope.bindSkolem scope.universals vars)
  | t, _ => return t

/-- Several formulas without their quantifiers, from left to right. -/
def matrixAll : List Term → Scope → ConvertM (List Term)
  | [], _ => return []
  | t :: ts, scope => do
    let t ← matrix t scope
    return t :: (← matrixAll ts scope)

end

/-- A call keeps its symbol. -/
theorem matrix_call (f : FunSym) (args : List Term) (scope : Scope) :
    matrix (.call f args) scope = (do return .call f (← matrixAll args scope)) := by
  rw [matrix]
  rfl

/-- An operator stays. -/
theorem matrix_node (op : Op) (args : List Term) (scope : Scope) :
    matrix (.node op args) scope = (do return .node op (← matrixAll args scope)) := by
  rw [matrix]
  rfl

end ClauseForm
