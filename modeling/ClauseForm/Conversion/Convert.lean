import ClauseForm.Conversion.Biconditional
import ClauseForm.Conversion.Distribution
import ClauseForm.Conversion.Matrix
import ClauseForm.Evaluate

/-!
# Conversion to clauses

`ClauseForm.convert` turns a formula into clauses that are satisfiable together
exactly when the universal closure of the formula is. The closed formula is
brought into negation normal form, its quantifiers are taken away, its
biconditionals written out and its conjunctions raised on top; what then stands
below the conjunctions are the clauses (`ClauseForm.convertWithin`).

The steps may give names to subformulas. The formula that says what a name means
is converted at once, ahead of the formula that it was found in, and may have
subformulas that are given names in turn. How often that can happen inside one
another is bounded (`ClauseForm.nestingLimit`), whatever the formula.

Several formulas may share a conversion (`ClauseForm.convertAll`), and with it
the counters of its new symbols.
-/

namespace ClauseForm

namespace ConvertM

/-! ### Gathering clauses -/

/-- Adds a clause to those gathered; where the conversion simplifies, a clause that is seen to be
true is left out, and false constants are taken out of the others. -/
def gatherClause (c : Clause) : ConvertM Unit := do
  if (← get).config.simplify then
    if ← ofExcept c.isTautology then return
    let c ← ofExcept c.withoutFalse
    modify fun state => { state with clauses := state.clauses ++ [c] }
  else
    modify fun state => { state with clauses := state.clauses ++ [c] }

/-- Adds the clauses of a conjunction of disjunctions to those gathered. -/
def gatherClauses (formula : Term) : ConvertM Unit :=
  (formula.flatten .and).forM fun disjunction => gatherClause ⟨disjunction.flatten .or⟩

end ConvertM

/-! ### Converting a closed formula -/

/-- Adds the clauses of a closed formula to those gathered. The formulas that define new symbols
go by way of `define`. -/
def convertBy (define : Term → ConvertM Unit) (formula : Term) : ConvertM Unit := do
  let normal ← ConvertM.ofExcept (formula.lowerNot true)
  ConvertM.report (.normalized normal)
  let matrix ← matrix normal .empty
  let matrix ← expandIffs define matrix
  let conjunctive ← raiseAnds define matrix
  ConvertM.report (.distributed conjunctive)
  ConvertM.gatherClauses conjunctive

/-- Adds the clauses of a closed formula to those gathered, those of definitions included, which
may be nested less than `limit` levels deep. -/
def convertWithin : Nat → Term → ConvertM Unit
  | 0, _ => throw .nesting
  | limit + 1, formula => convertBy (convertWithin limit) formula

/-- How deep conversions can be nested. The first one may find biconditionals between the operators
inside atoms, whose sides are not in negation normal form. The definitions of these sides may hold
more biconditionals, but no more inside atoms; so the sides of those hold none. Their definitions
still may need names for conjunctions, but the definition of such a name needs no name itself. -/
def nestingLimit : Nat :=
  4

/-! ### Converting formulas -/

namespace ConvertM

/-- Adds the clauses of a formula, closed universally, to those gathered. -/
def add (formula : Term) : ConvertM Unit := do
  let before := (← get).clauses.length
  let formula ←
    if (← get).config.simplify then ofExcept (formula.evaluate .empty) else pure formula
  let closed := formula.universalClosure
  report (.converting closed)
  convertWithin nestingLimit closed
  let total := (← get).clauses.length
  report (.produced (total - before) total)

/-- Adds the clauses of several formulas one after the other, and tells how many there are after
each. -/
def addAll : List Term → ConvertM (List Nat)
  | [] => return []
  | formula :: formulas => do
    add formula
    let count := (← get).clauses.length
    return count :: (← addAll formulas)

end ConvertM

/-- A conversion about to begin, of which no journal is kept. -/
def Conversion.start (config : Config) (voc : Vocabulary) : Conversion :=
  { config, vocabulary := voc }

/-- What a conversion comes to: the clauses gathered or a fault, and the vocabulary it leaves. -/
def Conversion.finish {α : Type} (outcome : EStateM.Result Fault Conversion α) :
    Except Fault Cnf × Vocabulary :=
  match outcome with
  | .ok _ state => (.ok ⟨state.clauses⟩, state.vocabulary)
  | .error fault state => (.error fault, state.vocabulary)

/-- The clauses of several formulas, converted one after the other with the same counters. -/
def convertAll (config : Config) (formulas : List Term) (voc : Vocabulary) :
    Except Fault Cnf × Vocabulary :=
  Conversion.finish ((ConvertM.addAll formulas).run (.start config voc))

/-- The clauses of a formula, and the vocabulary with the symbols that they need. -/
def convert (config : Config) (formula : Term) (voc : Vocabulary) :
    Except Fault Cnf × Vocabulary :=
  Conversion.finish ((ConvertM.add formula).run (.start config voc))

end ClauseForm
