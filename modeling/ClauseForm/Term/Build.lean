import ClauseForm.Number.Binary
import ClauseForm.Number.Format
import ClauseForm.Term.Basic

/-!
# Building terms with their contracts checked

The constructors of `ClauseForm.Term` check nothing. Here stand the ones that do:
an operator gets as many arguments as it takes
(`ClauseForm.Term.node?_eq_ok_iff`), a quantifier at least one bound variable, a
numeric literal a text that denotes a number. A refusal names its cause, a
`ClauseForm.TermError`, whose wording is `ClauseForm.TermError.message`.
-/

namespace ClauseForm

/-- The kinds of number that a term can hold. -/
inductive NumberKind where
  | integer
  | rational
  | real
deriving DecidableEq, Repr, Inhabited

namespace NumberKind

/-- What a kind of number is called. -/
def word : NumberKind → String
  | integer => "integer"
  | rational => "rational"
  | real => "real"

end NumberKind

/-- Why a term was not built. -/
inductive TermError where
  /-- An operator was given a number of arguments that it does not take. -/
  | arity (op : Op) (expected found : Nat)
  /-- No operator has this symbol. -/
  | unknownOperator (symbol : String)
  /-- A quantifier was given nothing to bind. -/
  | noBinders (q : Quantifier)
  /-- What stands at this position of the bound variables is not a variable. -/
  | notAVariable (position : Nat)
  /-- The text denotes no number of the kind. -/
  | invalidNumber (kind : NumberKind) (text : String)
  /-- The floating-point value denotes no number. -/
  | notFinite (value : Binary64.NonFinite)
deriving DecidableEq, Repr, Inhabited

namespace TermError

/-- The wording of a refusal. -/
def message : TermError → String
  | arity op expected found =>
    s!"operator {op.symbol} expects {expected} argument(s), got {found}"
  | unknownOperator symbol => s!"unknown operator: {symbol}"
  | noBinders q => s!"quantifier {q.symbol} needs at least one bound variable"
  | notAVariable position => s!"bound position {position} of quantifier is not a variable"
  | invalidNumber kind text => s!"invalid {kind.word} literal: {text}"
  | notFinite value => s!"{value.text} is not a finite number"

end TermError

namespace Term

/-! ### Numeric literals -/

/-- The number of a kind that a text denotes, once the blanks at its ends are cut off; `term` makes
a term of the number. -/
def numberOfText {α : Type} (kind : NumberKind) (term : α → Term) (read? : List Char → Option α)
    (text : String) : Except TermError Term :=
  (read? (Text.trim text.toList)).elim (.error (.invalidNumber kind text)) fun x => .ok (term x)

/-- The integer that a text denotes, given a reader of integers. -/
def integerOfTextBy (read? : List Char → Option Int) : String → Except TermError Term :=
  numberOfText .integer .integer read?

/-- The rational number that a text denotes, given a reader of rational numbers. -/
def rationalOfTextBy (read? : List Char → Option Rat) : String → Except TermError Term :=
  numberOfText .rational .rational read?

/-- The real number that a text denotes, given a reader of rational numbers: a decimal, or else a
rational number. -/
def realOfTextBy (read? : List Char → Option Rat) : String → Except TermError Term :=
  numberOfText .real .real fun cs => (Literal.decimal? cs).or (read? cs)

/-- The integer that a text denotes. -/
def integerOfText : String → Except TermError Term :=
  integerOfTextBy NumberFormat.baseTen.integer?

/-- The rational number that a text denotes. -/
def rationalOfText : String → Except TermError Term :=
  rationalOfTextBy NumberFormat.baseTen.rational?

/-- The real number that a text denotes. -/
def realOfText : String → Except TermError Term :=
  realOfTextBy NumberFormat.baseTen.rational?

/-- The rational number that a floating-point value stands for exactly. -/
def rationalOfBinary (bits : UInt64) : Except TermError Term :=
  match Binary64.value bits with
  | .ok x => .ok (.rational x)
  | .error value => .error (.notFinite value)

/-- The real number that a floating-point value stands for exactly. -/
def realOfBinary (bits : UInt64) : Except TermError Term :=
  match Binary64.value bits with
  | .ok x => .ok (.real x)
  | .error value => .error (.notFinite value)

/-! ### Operators and quantifiers -/

/-- An operator over arguments, as many as it takes. -/
def node? (op : Op) (args : List Term) : Except TermError Term :=
  match op.arity with
  | some expected =>
    if args.length = expected then .ok (.node op args)
    else .error (.arity op expected args.length)
  | none => .ok (.node op args)

/-- Checking changes nothing in the term, and refuses exactly the wrong argument counts. -/
theorem node?_eq_ok_iff {op : Op} {args : List Term} {t : Term} :
    node? op args = .ok t ↔ op.takes args.length = true ∧ t = .node op args := by
  unfold node? Op.takes
  cases op.arity with
  | none => simpa using eq_comm
  | some n =>
    by_cases h : args.length = n
    · simpa [h] using eq_comm
    · simp [h, show n ≠ args.length from fun e => h e.symm]

/-- The operator with a given symbol, over arguments. -/
def ofSymbol? (symbol : String) (args : List Term) : Except TermError Term :=
  match Op.ofSymbol? symbol with
  | some op => node? op args
  | none => .error (.unknownOperator symbol)

/-- A quantifier over at least one variable. -/
def quant? (q : Quantifier) (vars : List Var) (body : Term) : Except TermError Term :=
  if vars.isEmpty then .error (.noBinders q) else .ok (.quant q vars body)

/-- The variables that a list of terms consists of, the first of which stands at `position`. -/
def binders (position : Nat) : List Term → Except TermError (List Var)
  | [] => .ok []
  | .var v :: ts => (binders (position + 1) ts).map (v :: ·)
  | _ :: _ => .error (.notAVariable position)

/-- A quantifier over at least one term, each of which has to be a variable. -/
def quantOver? (q : Quantifier) (bound : List Term) (body : Term) : Except TermError Term := do
  if bound.isEmpty then throw (.noBinders q)
  return .quant q (← binders 0 bound) body

end Term

end ClauseForm
