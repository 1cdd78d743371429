import ClauseForm.Term.Show

/-!
# Clauses

A clause (`ClauseForm.Clause`) is a disjunction of literals, and a clause set
(`ClauseForm.Cnf`) a conjunction of clauses, both with an order. The empty clause
is false, and the empty clause set true.

A clause is a tautology on sight (`ClauseForm.Clause.isTautology`) if one of its
literals is a true constant or the complement of a later one.
-/

namespace ClauseForm

/-- A disjunction of literals. -/
structure Clause where
  /-- The literals, from left to right. -/
  literals : List Term
deriving DecidableEq, Repr, Inhabited

/-- A conjunction of clauses. -/
structure Cnf where
  /-- The clauses, from first to last. -/
  clauses : List Clause
deriving DecidableEq, Repr, Inhabited

namespace Term

/-! ### Literals -/

/-- The truth value of a literal that is a truth value under any number of negations. -/
def literalValue : Term → Except Fault (Option Bool)
  | .bool b => .ok (some b)
  | .node .not [] => .error (.missingArgument 0 0)
  | .node .not (t :: _) => do return (← literalValue t).map (!·)
  | _ => .ok none

/-- The literal that is true where this one is false. -/
def complement : Term → Except Fault Term
  | .node .not [] => .error (.missingArgument 0 0)
  | .node .not (t :: _) => .ok t
  | t => .ok t.neg

/-- Whether some literal of a list is a true constant or the complement of a later one. -/
def anyTrueOrComplementary : List Term → Except Fault Bool
  | [] => .ok false
  | l :: rest => do
    if (← l.literalValue) = some true then return true
    if (← l.complement) ∈ rest then return true
    anyTrueOrComplementary rest

/-- The literals of a list that are not false constants. -/
def dropFalse : List Term → Except Fault (List Term)
  | [] => .ok []
  | l :: rest => do
    let value ← l.literalValue
    let rest ← dropFalse rest
    return if value = some false then rest else l :: rest

end Term

namespace Clause

/-- Whether a clause is true for a reason that can be seen in its literals. -/
def isTautology (c : Clause) : Except Fault Bool :=
  Term.anyTrueOrComplementary c.literals

/-- The clause without the literals that are false constants. -/
def withoutFalse (c : Clause) : Except Fault Clause := do
  return ⟨← Term.dropFalse c.literals⟩

/-- The clause as a disjunction. -/
def toTerm (c : Clause) : Term :=
  .disj c.literals

/-- The text of a clause: its literals with bars between them, or falsity if there are none. -/
def text (voc : Vocabulary) (c : Clause) : Except Fault String := do
  match c.literals with
  | [] => return "$false"
  | literals => return " | ".intercalate (← Term.textAll voc literals)

end Clause

namespace Cnf

/-- The clause set as a conjunction of disjunctions. -/
def toTerm (cnf : Cnf) : Term :=
  .conj (cnf.clauses.map Clause.toTerm)

/-- The text of a clause set: its clauses on lines of their own. -/
def text (voc : Vocabulary) (cnf : Cnf) : Except Fault String := do
  return "\n".intercalate (← cnf.clauses.mapM (Clause.text voc))

end Cnf

end ClauseForm
