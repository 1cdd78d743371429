import ClauseForm.Conversion.State
import ClauseForm.NegationNormal

/-!
# Biconditionals

`ClauseForm.expandIffs` writes every biconditional of a quantifier-free formula as
two implications, innermost first. Each side then stands twice, so a side that is
more than a literal is first given a name (`ClauseForm.nameSide`): a new atom
takes its place, and what the atom means goes the way of a formula of its own.
That way is the parameter `define` of everything here.

Only operators are looked into, whichever they are; a call is left alone.
-/

namespace ClauseForm

/-- A side of a biconditional, or its name if it is a connective under any number of negations. -/
def nameSide (define : Term → ConvertM Unit) (side : Term) : ConvertM Term := do
  let core ← ConvertM.ofExcept side.stripNegations
  if core.op?.any Op.isConnective then
    let atom ← ConvertM.nameFor side
    define (.conj [.imp side atom, .imp atom side])
    return atom
  else return side

/-- The side of a biconditional at a place among its arguments. -/
def sideAt (args : List Term) (i : Nat) : ConvertM Term :=
  match args[i]? with
  | some side => pure side
  | none => throw (.missingArgument args.length i)

/-- A biconditional of two literals as two implications, in negation normal form. -/
def expandIff (left right : Term) : ConvertM Term :=
  ConvertM.ofExcept ((Term.conj [.imp left right, .imp right left]).lowerNot true)

mutual

/-- The formula without its biconditionals. -/
def expandIffs (define : Term → ConvertM Unit) : Term → ConvertM Term
  | .node op args => do
    let args ← expandIffsAll define args
    if op = .iff then
      let left ← nameSide define (← sideAt args 0)
      let right ← nameSide define (← sideAt args 1)
      expandIff left right
    else return .node op args
  | t => return t

/-- Several formulas without their biconditionals, from left to right. -/
def expandIffsAll (define : Term → ConvertM Unit) : List Term → ConvertM (List Term)
  | [] => return []
  | t :: ts => do
    let t ← expandIffs define t
    return t :: (← expandIffsAll define ts)

end

end ClauseForm
