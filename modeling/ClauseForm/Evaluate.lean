import ClauseForm.Compare
import ClauseForm.Substitution

/-!
# Evaluation

`ClauseForm.Term.evaluate` simplifies a term under a substitution. What the
substitution binds is replaced by its binding as it is; elsewhere the parts are
evaluated first, and then the operator on top of them is folded
(`ClauseForm.Term.fold`):

* `&` and `|` drop the truth value that does not matter to them, collapse on the
  one that settles them, and vanish over a single argument;
* `~` turns a truth value and cancels another `~`;
* `=` and `!=` decide equal operands, and constants that differ;
* the ordering predicates decide equal operands, and numbers of one kind.

The other connectives stay, and quantifiers are never reasoned about; but what a
quantifier binds is not replaced in its body.
-/

namespace ClauseForm

namespace Term

/-! ### Folding one operator -/

/-- A conjunction or disjunction of evaluated formulas. The truth value `neutral` may be dropped
from it, and the other one settles it. -/
def foldJunction (op : Op) (neutral : Bool) (args : List Term) : Term :=
  if .bool (!neutral) ∈ args then .bool (!neutral)
  else
    match args.filter (· ≠ .bool neutral) with
    | [] => .bool neutral
    | [t] => t
    | rest => .node op rest

/-- The negation of an evaluated formula. -/
def foldNegation : Term → Except Fault Term
  | .bool b => .ok (.bool !b)
  | .node .not [] => .error (.missingArgument 0 0)
  | .node .not (t :: _) => .ok t
  | t => .ok (.neg t)

/-- The equation of two evaluated terms, or its negation: constants that differ have different
values. -/
def foldEquation (op : Op) (positive : Bool) (s t : Term) : Term :=
  if s = t then .bool positive
  else if s.isConstant && t.isConstant then .bool !positive
  else .node op [s, t]

/-- The comparison of two evaluated terms; `reflexive` says whether it holds of equal ones. -/
def foldComparison (op : Op) (reflexive : Bool) (s t : Term) : Term :=
  if s = t then .bool reflexive
  else
    match decide? op s t with
    | some b => .bool b
    | none => .node op [s, t]

/-- An operator over evaluated arguments. -/
def fold : Op → List Term → Except Fault Term
  | .and, args => .ok (foldJunction .and true args)
  | .or, args => .ok (foldJunction .or false args)
  | .not, [t] => foldNegation t
  | .equals, [s, t] => .ok (foldEquation .equals true s t)
  | .notEquals, [s, t] => .ok (foldEquation .notEquals false s t)
  | .less, [s, t] => .ok (foldComparison .less false s t)
  | .lessEq, [s, t] => .ok (foldComparison .lessEq true s t)
  | .greater, [s, t] => .ok (foldComparison .greater false s t)
  | .greaterEq, [s, t] => .ok (foldComparison .greaterEq true s t)
  | op, args => if op.takes args.length then .ok (.node op args) else .error (.arity op args.length)

/-! ### Evaluating a term -/

mutual

/-- The term simplified under a substitution. -/
def evaluate (t : Term) (σ : Substitution) : Except Fault Term :=
  match σ.get? t with
  | some bound => .ok bound
  | none =>
    match t with
    | .node op args => do fold op (← evaluateAll args σ)
    | .call f args => do (Term.call f args).withArgs (← evaluateAll args σ)
    | .quant q vars body => do
      let body' ← evaluate body (vars.foldl (fun τ v => τ.remove (.var v)) σ)
      (Term.quant q vars body).withArgs [body']
    | leaf => .ok leaf

/-- Several terms simplified under a substitution. -/
def evaluateAll (ts : List Term) (σ : Substitution) : Except Fault (List Term) :=
  match ts with
  | [] => .ok []
  | t :: ts => do return (← evaluate t σ) :: (← evaluateAll ts σ)

end

end Term

end ClauseForm
