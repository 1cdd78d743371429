import ClauseForm.Bindings
import ClauseForm.Clause

/-!
# Equality up to renaming

A renaming (`ClauseForm.Renaming`) pairs symbols one to one: variables with
variables, function symbols with function symbols.
`ClauseForm.Renaming.check` walks through two terms side by side and extends a
renaming by what it takes to turn the one into the other, or fails if nothing
does.

Variables and function symbols standing alone may be paired freely. The heads of
two calls may be paired only if they are one symbol already or if one of them was
generated: that is enough to compare the results of two conversions, whose new
symbols differ, while declared predicates and functions keep their meaning.
-/

namespace ClauseForm

/-- What a renaming renames: a variable or a function symbol, by number. -/
inductive Symbol where
  /-- A variable. -/
  | var (id : Nat)
  /-- A function symbol, of whatever origin. -/
  | fn (id : Nat)
deriving DecidableEq, Repr, Inhabited

/-- Pairs of symbols, each symbol of either side in one pair at most. -/
structure Renaming where
  /-- From the symbols of the left side to those of the right. -/
  forward : Bindings Symbol Symbol := .empty
  /-- From the symbols of the right side to those of the left. -/
  backward : Bindings Symbol Symbol := .empty
deriving DecidableEq, Repr, Inhabited

namespace Renaming

/-- How many pairs there are. -/
def size (r : Renaming) : Nat :=
  r.forward.size

/-- Whether there are no pairs. -/
def isEmpty (r : Renaming) : Bool :=
  r.forward.isEmpty

/-- The symbol that a symbol of the left side is paired with. -/
def image? (r : Renaming) (s : Symbol) : Option Symbol :=
  r.forward.get? s

/-- The renaming with two symbols paired, unless one of them is paired otherwise. -/
def pair (r : Renaming) (left right : Symbol) : Option Renaming :=
  match r.forward.get? left, r.backward.get? right with
  | none, none => some ⟨r.forward.add left right, r.backward.add right left⟩
  | some image, some preimage => if image = right ∧ preimage = left then some r else none
  | _, _ => none

/-- The renaming with two lists of variables paired in order, as far as both reach. -/
def pairVars (r : Renaming) : List Var → List Var → Option Renaming
  | x :: xs, y :: ys =>
    match r.pair (.var x.id) (.var y.id) with
    | some r => pairVars r xs ys
    | none => none
  | _, _ => some r

/-- Whether the head of one call may be paired with the head of another. -/
def headsAgree (f g : FunSym) : Bool :=
  f.id == g.id || f.origin.isGenerated || g.origin.isGenerated

mutual

/-- The renaming extended so that it turns one term into another. -/
def check (r : Renaming) : Term → Term → Option Renaming
  | .var x, .var y => r.pair (.var x.id) (.var y.id)
  | .const f, .const g => r.pair (.fn f.id) (.fn g.id)
  | .call f ss, .call g ts =>
    if ss.length = ts.length ∧ headsAgree f g = true then
      match r.pair (.fn f.id) (.fn g.id) with
      | some r => checkAll r ss ts
      | none => none
    else none
  | .node op₁ ss, .node op₂ ts =>
    if op₁ = op₂ ∧ ss.length = ts.length then checkAll r ss ts else none
  | .quant q us b, .quant p vs c =>
    if q = p ∧ us.length = vs.length then
      match r.pairVars us vs with
      | some r => check r b c
      | none => none
    else none
  | s, t => if s = t then some r else none

/-- The renaming extended so that it turns the terms of one list into those of another, in order
and as far as both reach. -/
def checkAll (r : Renaming) : List Term → List Term → Option Renaming
  | s :: ss, t :: ts =>
    match check r s t with
    | some r => checkAll r ss ts
    | none => none
  | _, _ => some r

end

/-- The renaming extended so that it turns one list of terms into another of the same length. -/
def checkList (r : Renaming) (ss ts : List Term) : Option Renaming :=
  if ss.length = ts.length then r.checkAll ss ts else none

/-- The renaming extended so that it turns one clause into another, literal by literal. -/
def checkClause (r : Renaming) (c d : Clause) : Option Renaming :=
  r.checkList c.literals d.literals

/-- The renaming extended so that it turns the clauses of one list into those of another, in order
and as far as both reach. -/
def checkClauses (r : Renaming) : List Clause → List Clause → Option Renaming
  | c :: cs, d :: ds =>
    match r.checkClause c d with
    | some r => checkClauses r cs ds
    | none => none
  | _, _ => some r

end Renaming

/-- Whether two terms are equal up to a renaming. -/
def Term.isomorphic (s t : Term) : Bool :=
  (Renaming.check {} s t).isSome

/-- Whether two clause sets are equal up to one renaming, clause by clause. -/
def Cnf.isomorphic (c d : Cnf) : Bool :=
  c.clauses.length == d.clauses.length &&
    (Renaming.checkClauses {} c.clauses d.clauses).isSome

end ClauseForm
