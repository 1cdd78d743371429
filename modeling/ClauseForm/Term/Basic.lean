import ClauseForm.Fault
import ClauseForm.Symbol

/-!
# Terms and formulas

One type, `ClauseForm.Term`, covers the terms and the formulas of first-order
logic: constants, symbols and calls, operators over arguments, and quantifiers
over a body. Nothing in the type keeps a formula out of an argument place, and
nothing ties an operator to the number of its arguments; the terms that do keep
the counts are those of `ClauseForm.Term.WellFormed`.

Terms are compared by structure (`ClauseForm.Term.equal`): symbols by number and
origin, numbers by value within their own kind, arguments in order.
-/

namespace ClauseForm

/-- A term or a formula. -/
inductive Term where
  /-- A truth value. -/
  | bool (value : Bool)
  /-- A distinct object: two of them are equal exactly when their names are. -/
  | object (name : String)
  /-- An integer. -/
  | integer (value : Int)
  /-- A rational number. -/
  | rational (value : Rat)
  /-- A real number, of which only the rational ones can be written. -/
  | real (value : Rat)
  /-- A function symbol standing alone. -/
  | const (f : FunSym)
  /-- A variable. -/
  | var (v : Var)
  /-- A function symbol applied to arguments; to none is not the same as standing alone. -/
  | call (f : FunSym) (args : List Term)
  /-- A connective or built-in predicate over arguments. -/
  | node (op : Op) (args : List Term)
  /-- A quantifier that binds variables in a body. -/
  | quant (q : Quantifier) (vars : List Var) (body : Term)
deriving Repr, Inhabited

namespace Term

/-! ### Induction

The recursor of a type nested in lists speaks of lists of terms; this one speaks
of their members. -/

/-- Induction over terms: a call or an operator may use the claim for each of its arguments. -/
@[elab_as_elim]
theorem induct {motive : Term → Prop}
    (bool : ∀ b, motive (.bool b)) (object : ∀ s, motive (.object s))
    (integer : ∀ n, motive (.integer n)) (rational : ∀ x, motive (.rational x))
    (real : ∀ x, motive (.real x)) (const : ∀ f, motive (.const f)) (var : ∀ v, motive (.var v))
    (call : ∀ f args, (∀ a ∈ args, motive a) → motive (.call f args))
    (node : ∀ op args, (∀ a ∈ args, motive a) → motive (.node op args))
    (quant : ∀ q vars body, motive body → motive (.quant q vars body)) (t : Term) : motive t :=
  @Term.rec motive (fun ts => ∀ a ∈ ts, motive a)
    bool object integer rational real const var call node quant (by simp)
    (fun _ _ hd tl a ha => by
      rcases List.mem_cons.1 ha with rfl | h
      · exact hd
      · exact tl a h) t

/-! ### Parts of a term -/

/-- The arguments of a call or an operator, or the body of a quantifier. -/
def args : Term → List Term
  | .call _ args | .node _ args => args
  | .quant _ _ body => [body]
  | _ => []

/-- The operator at the top of a term, if one stands there. -/
def op? : Term → Option Op
  | .node op _ => some op
  | _ => none

/-- Whether the operator `op` stands at the top of a term. -/
def isOp (t : Term) (op : Op) : Bool :=
  t.op? == some op

/-- The variable that a term is, if it is one. -/
def var? : Term → Option Var
  | .var v => some v
  | _ => none

/-- Whether a term is a variable. -/
def isVar : Term → Bool
  | .var _ => true
  | _ => false

/-- Whether a term is a number. -/
def isNumeric : Term → Bool
  | .integer _ | .rational _ | .real _ => true
  | _ => false

/-- Whether a term is a truth value, a distinct object or a number. -/
def isConstant : Term → Bool
  | .bool _ | .object _ => true
  | t => t.isNumeric

/-- What remains of a formula when every `~` at its top is taken away. -/
def stripNegations : Term → Except Fault Term
  | .node .not [] => .error (.missingArgument 0 0)
  | .node .not (t :: _) => t.stripNegations
  | t => .ok t

/-- The same term over other arguments. The number of arguments is not checked, save that a
quantifier takes the first as its body and that a leaf takes none. -/
def withArgs (t : Term) (args : List Term) : Except Fault Term :=
  match t with
  | .call f _ => .ok (.call f args)
  | .node op _ => .ok (.node op args)
  | .quant q vars _ =>
    match args with
    | body :: _ => .ok (.quant q vars body)
    | [] => .error (.noBody q)
  | leaf => if args.isEmpty then .ok leaf else .error .leafArguments

/-! ### Equality

Terms are equal if they agree at the top and in their arguments. -/

/-- Whether two terms agree in everything but their arguments. -/
def sameHead : Term → Term → Bool
  | .bool a, .bool b => a == b
  | .object a, .object b => a == b
  | .integer a, .integer b => a == b
  | .rational a, .rational b => a == b
  | .real a, .real b => a == b
  | .const a, .const b => a == b
  | .var a, .var b => a == b
  | .call f _, .call g _ => f == g
  | .node o _, .node p _ => o == p
  | .quant q us _, .quant r vs _ => q == r && us == vs
  | _, _ => false

/-- Terms are equal exactly when they agree at the top and in their arguments. -/
theorem eq_iff_args {s t : Term} : s = t ↔ sameHead s t = true ∧ s.args = t.args := by
  cases s <;> cases t <;> simp [sameHead, args, and_assoc]

/-- A term is rebuilt over as many arguments as it has, and differs in nothing else then. -/
theorem exists_withArgs {t : Term} {args : List Term} (h : args.length = t.args.length) :
    ∃ u, t.withArgs args = .ok u ∧ sameHead t u = true ∧ u.args = args := by
  cases t with
  | call f _ => exact ⟨.call f args, rfl, beq_self_eq_true f, rfl⟩
  | node op _ => exact ⟨.node op args, rfl, beq_self_eq_true op, rfl⟩
  | quant q vars _ =>
    obtain ⟨body, rfl⟩ := List.length_eq_one_iff.1 h
    exact ⟨.quant q vars body, rfl, by simp [sameHead], rfl⟩
  | _ =>
    obtain rfl := List.length_eq_zero_iff.1 h
    exact ⟨_, rfl, by simp [sameHead], rfl⟩

/-- An answer to the question whether two terms are equal, given at once if they are one object in
memory. -/
@[inline]
def unlessShared (s t : Term) (answer : Unit → { b : Bool // b = true ↔ s = t }) :
    { b : Bool // b = true ↔ s = t } :=
  ⟨withPtrEq s t (fun _ => (answer ()).1) fun h => (answer ()).2.2 h, (answer ()).2⟩

mutual

/-- Whether two terms are equal, found out part by part. Shared parts are not looked into, so that
a term that repeats its parts many times over is compared with itself in one step for each part
that is different. -/
def equal : (s t : Term) → { b : Bool // b = true ↔ s = t }
  | .call f xs, t =>
    ⟨sameHead (.call f xs) t && (equalAll xs t.args).1, by
      rw [Bool.and_eq_true, (equalAll xs t.args).2, eq_iff_args]; rfl⟩
  | .node op xs, t =>
    ⟨sameHead (.node op xs) t && (equalAll xs t.args).1, by
      rw [Bool.and_eq_true, (equalAll xs t.args).2, eq_iff_args]; rfl⟩
  | .quant q vars body, t =>
    ⟨sameHead (.quant q vars body) t &&
        t.args.all fun b => (unlessShared body b fun _ => equal body b).1, by
      cases t <;> simp [sameHead, args, (unlessShared _ _ fun _ => equal body _).2, and_assoc]⟩
  | s@(.bool _), t | s@(.object _), t | s@(.integer _), t | s@(.rational _), t | s@(.real _), t
  | s@(.const _), t | s@(.var _), t => ⟨sameHead s t, by subst_vars; cases t <;> simp [sameHead]⟩

/-- Whether two lists of terms are equal, found out place by place. -/
def equalAll : (xs ys : List Term) → { b : Bool // b = true ↔ xs = ys }
  | [], ys => ⟨ys.isEmpty, by cases ys <;> simp⟩
  | _ :: _, [] => ⟨false, by simp⟩
  | x :: xs, y :: ys =>
    ⟨(unlessShared x y fun _ => equal x y).1 && (equalAll xs ys).1, by
      simp [(unlessShared x y fun _ => equal x y).2, (equalAll xs ys).2]⟩

end

instance : DecidableEq Term := fun s t =>
  decidable_of_iff _ (unlessShared s t fun _ => equal s t).2

/-! ### Shorthands for formulas -/

/-- The conjunction of a list of formulas. -/
def conj (args : List Term) : Term :=
  .node .and args

/-- The disjunction of a list of formulas. -/
def disj (args : List Term) : Term :=
  .node .or args

/-- The negation of a formula. -/
def neg (t : Term) : Term :=
  .node .not [t]

/-- The implication from one formula to another. -/
def imp (s t : Term) : Term :=
  .node .implies [s, t]

/-- The biconditional of two formulas. -/
def iff (s t : Term) : Term :=
  .node .iff [s, t]

/-- The equation of two terms. -/
def eq (s t : Term) : Term :=
  .node .equals [s, t]

end Term

end ClauseForm
