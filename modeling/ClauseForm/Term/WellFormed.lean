import ClauseForm.Term.Basic

/-!
# Well-formed terms

A term is well-formed (`ClauseForm.Term.WellFormed`) when every operator in it
stands over a number of arguments that it takes and every quantifier binds at
least one variable. Nothing is asked of what stands in an argument place: a
formula may stand inside a call.
-/

namespace ClauseForm

namespace Term

mutual

/-- Whether every operator in a term has as many arguments as it takes, and every quantifier binds
a variable. -/
def wellFormed : Term → Bool
  | .call _ args => allWellFormed args
  | .node op args => op.takes args.length && allWellFormed args
  | .quant _ vars body => !vars.isEmpty && wellFormed body
  | _ => true

/-- Whether several terms are all well-formed. -/
def allWellFormed : List Term → Bool
  | [] => true
  | t :: ts => wellFormed t && allWellFormed ts

end

/-- Every operator in the term has as many arguments as it takes, and every quantifier binds a
variable. -/
def WellFormed (t : Term) : Prop :=
  t.wellFormed = true

instance (t : Term) : Decidable t.WellFormed :=
  inferInstanceAs (Decidable (t.wellFormed = true))

theorem allWellFormed_iff {ts : List Term} :
    allWellFormed ts = true ↔ ∀ t ∈ ts, t.WellFormed := by
  induction ts with
  | nil => simp [allWellFormed]
  | cons t ts ih => simp [allWellFormed, ih, WellFormed]

/-- A call is well-formed when its arguments are. -/
theorem wellFormed_call {f : FunSym} {args : List Term} :
    (Term.call f args).WellFormed ↔ ∀ t ∈ args, t.WellFormed := by
  rw [← allWellFormed_iff, WellFormed, wellFormed]

/-- An operator node is well-formed when the operator takes that many arguments and these are. -/
theorem wellFormed_node {op : Op} {args : List Term} :
    (Term.node op args).WellFormed ↔ op.takes args.length = true ∧ ∀ t ∈ args, t.WellFormed := by
  rw [← allWellFormed_iff, WellFormed, wellFormed, Bool.and_eq_true]

/-- A quantifier is well-formed when it binds a variable and its body is. -/
theorem wellFormed_quant {q : Quantifier} {vars : List Var} {body : Term} :
    (Term.quant q vars body).WellFormed ↔ vars ≠ [] ∧ body.WellFormed := by
  simp [WellFormed, wellFormed]

end Term

end ClauseForm
