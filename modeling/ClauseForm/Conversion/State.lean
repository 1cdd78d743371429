import ClauseForm.Clause
import ClauseForm.Conversion.Event
import ClauseForm.Term.Free

/-!
# The state of a conversion

A conversion (`ClauseForm.Conversion`) gathers the clauses of the formulas given
to it, and introduces symbols on the way: fresh variables, Skolem functions, and
names for subformulas. The counters behind the names of the functions run on from
formula to formula.

The steps of a conversion are programs over this state (`ClauseForm.ConvertM`). A
step that ends in a fault still leaves the symbols behind that it introduced.
-/

namespace ClauseForm

/-- What can be chosen about a conversion. -/
structure Config where
  /-- What the names of Skolem functions begin with. -/
  skolemStem : String := "sk"
  /-- What the names of definitional symbols begin with. -/
  definitionStem : String := "def"
  /-- Whether to evaluate a formula before it is converted, to drop the clauses that are seen to be
  true, and to take false constants out of the others. -/
  simplify : Bool := false
deriving DecidableEq, Repr, Inhabited

/-- A conversion under way. -/
structure Conversion where
  /-- The choices made for it. -/
  config : Config
  /-- The symbols allotted so far. -/
  vocabulary : Vocabulary
  /-- How many Skolem functions were introduced. -/
  skolems : Nat := 0
  /-- How many definitional symbols were introduced. -/
  definitions : Nat := 0
  /-- The clauses gathered so far. -/
  clauses : List Clause := []
  /-- The entries made so far, if a journal is kept. -/
  journal : Option (List Entry) := none
deriving DecidableEq, Repr, Inhabited

/-- A step of a conversion, which may end in a fault. -/
abbrev ConvertM :=
  EStateM Fault Conversion

/-- The function symbol applied to arguments, or standing alone if there are none. -/
def FunSym.appliedTo (f : FunSym) (args : List Term) : Term :=
  if args.isEmpty then .const f else .call f args

namespace ConvertM

/-- The answer of a computation that needs no state. -/
def ofExcept {α : Type} (x : Except Fault α) : ConvertM α :=
  match x with
  | .ok a => pure a
  | .error fault => throw fault

/-- Enters an event in the journal, if one is kept. -/
def report (e : Event) : ConvertM Unit := do
  let state ← get
  match state.journal with
  | none => return
  | some entries =>
    let entry ← ofExcept (e.entry state.vocabulary)
    set { state with journal := some (entries ++ [entry]) }

/-! ### Introducing symbols -/

/-- A fresh variable that is shown like `v`. -/
def freshLike (v : Var) : ConvertM Var :=
  modifyGet fun state =>
    let (fresh, voc) := state.vocabulary.freshLike v
    (fresh, { state with vocabulary := voc })

/-- A new Skolem function. -/
def newSkolem : ConvertM FunSym :=
  modifyGet fun state =>
    let name := s!"{state.config.skolemStem}{state.skolems}"
    let (f, voc) := state.vocabulary.newFun (some name) .skolem
    (f, { state with vocabulary := voc, skolems := state.skolems + 1 })

/-- A new definitional symbol. -/
def newDefinition : ConvertM FunSym :=
  modifyGet fun state =>
    let name := s!"{state.config.definitionStem}{state.definitions}"
    let (f, voc) := state.vocabulary.newFun (some name) .definition
    (f, { state with vocabulary := voc, definitions := state.definitions + 1 })

/-- A new atom that is to be the name of a formula: a new symbol over the formula's free
variables. What the name means is not stated here. -/
def nameFor (formula : Term) : ConvertM Term := do
  let f ← newDefinition
  let atom := f.appliedTo (formula.freeVars.map .var)
  report (.defining atom formula)
  return atom

end ConvertM

end ClauseForm
