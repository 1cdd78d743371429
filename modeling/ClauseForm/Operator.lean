/-!
# Operators and quantifiers

The connectives and built-in predicates (`ClauseForm.Op`) with their surface
symbols and argument counts, and the two quantifiers (`ClauseForm.Quantifier`).
Conjunction and disjunction take any number of arguments, none included.
-/

namespace ClauseForm

/-- A connective or built-in predicate. -/
inductive Op where
  /-- The predicate `!=`. -/
  | notEquals
  /-- The connective `&`, of any number of arguments. -/
  | and
  /-- The predicate `<`. -/
  | less
  /-- The predicate `<=`. -/
  | lessEq
  /-- The connective `<=>`. -/
  | iff
  /-- The connective `<~>`, exclusive or. -/
  | xor
  /-- The predicate `=`. -/
  | equals
  /-- The connective `=>`. -/
  | implies
  /-- The predicate `>`. -/
  | greater
  /-- The predicate `>=`. -/
  | greaterEq
  /-- The connective `|`, of any number of arguments. -/
  | or
  /-- The connective `~`. -/
  | not
  /-- The connective `~&`, the negated conjunction of two. -/
  | nand
  /-- The connective `~|`, the negated disjunction of two. -/
  | nor
deriving DecidableEq, Repr, Inhabited

namespace Op

/-- All operators, in the order of their symbols. -/
def all : List Op :=
  [notEquals, and, less, lessEq, iff, xor, equals, implies, greater, greaterEq, or, not, nand, nor]

/-- The surface symbol of an operator. -/
def symbol : Op → String
  | notEquals => "!="
  | and => "&"
  | less => "<"
  | lessEq => "<="
  | iff => "<=>"
  | xor => "<~>"
  | equals => "="
  | implies => "=>"
  | greater => ">"
  | greaterEq => ">="
  | or => "|"
  | not => "~"
  | nand => "~&"
  | nor => "~|"

/-- The operator with a given surface symbol. -/
def ofSymbol? (s : String) : Option Op :=
  all.find? (·.symbol == s)

/-- How many arguments an operator takes; `none` stands for any number. -/
def arity : Op → Option Nat
  | and | or => none
  | not => some 1
  | _ => some 2

/-- Whether an operator takes `n` arguments. -/
def takes (op : Op) (n : Nat) : Bool :=
  op.arity.all (· == n)

/-- Whether the operator orders numbers. -/
def isComparison : Op → Bool
  | less | lessEq | greater | greaterEq => true
  | _ => false

/-- Whether the operator is a connective other than `~`: a formula headed by one is worth a name
where it stands at a side of a biconditional. -/
def isConnective : Op → Bool
  | and | iff | xor | implies | or | nand | nor => true
  | _ => false

/-- Every operator is listed. -/
theorem mem_all (op : Op) : op ∈ all := by
  cases op <;> simp [all]

/-- An operator is found under its own symbol. -/
theorem ofSymbol?_symbol (op : Op) : ofSymbol? op.symbol = some op := by
  cases op <;> rfl

end Op

/-- A quantifier. -/
inductive Quantifier where
  /-- The universal quantifier `!`. -/
  | all
  /-- The existential quantifier `?`. -/
  | exist
deriving DecidableEq, Repr, Inhabited

namespace Quantifier

/-- The surface symbol of a quantifier. -/
def symbol : Quantifier → String
  | all => "!"
  | exist => "?"

/-- The quantifier that a negation turns this one into. -/
def dual : Quantifier → Quantifier
  | all => exist
  | exist => all

@[simp]
theorem dual_dual (q : Quantifier) : q.dual.dual = q := by
  cases q <;> rfl

end Quantifier

end ClauseForm
