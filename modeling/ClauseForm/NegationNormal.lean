import ClauseForm.Term.Basic

/-!
# Negation normal form

`ClauseForm.Term.lowerNot` pushes the negations of a formula down to its atoms
and takes apart the connectives that hide one: what remains is made of `&`, `|`,
`<=>`, quantifiers and literals. A negated biconditional keeps its right side and
carries the negation on its left one, since `~(a <=> b)` is `~a <=> b`.

Formulas can be nested more deeply than a stack of calls would bear. So the work
is kept as a list of tasks (`ClauseForm.Task`), next to a stack of finished
formulas: a formula is either finished on the spot or replaced by tasks for its
parts, followed by one that puts them together
(`ClauseForm.Task.expand`). How many tasks a formula takes altogether is counted by
`ClauseForm.Term.lowerCost`, which is why the work ends.
-/

namespace ClauseForm

/-- A piece of the work of pushing negations down. -/
inductive Task where
  /-- Lower a formula, or its negation if the sign is `false`. -/
  | lower (t : Term) (sign : Bool)
  /-- Put the last `count` finished formulas under an operator. -/
  | gather (op : Op) (count : Nat)
  /-- Put the last finished formula under a quantifier. -/
  | close (q : Quantifier) (vars : List Var)
deriving Repr

/-! ### How much work a formula is -/

/-- The number of tasks that lowering a formula headed by this operator takes, besides those for
its arguments. -/
def Op.lowerCost : Op → Nat
  | .not => 1
  | .and | .or | .iff => 2
  | .nand | .nor | .xor => 3
  | .implies => 4
  | .notEquals => 2
  | .equals | .less | .lessEq | .greater | .greaterEq => 1

mutual

/-- The number of tasks that lowering a formula takes. -/
def Term.lowerCost : Term → Nat
  | .node op args => op.lowerCost + lowerCostAll args
  | .quant _ _ body => 2 + body.lowerCost
  | _ => 1

/-- The number of tasks that lowering several formulas takes. -/
def Term.lowerCostAll : List Term → Nat
  | [] => 0
  | t :: ts => t.lowerCost + lowerCostAll ts

end

/-- Every formula takes some work. -/
theorem Term.lowerCost_pos (t : Term) : 0 < t.lowerCost := by
  cases t with
  | node op args =>
    have : 0 < op.lowerCost := by cases op <;> decide
    rw [lowerCost]
    omega
  | quant q vars body =>
    rw [lowerCost]
    omega
  | _ => exact Nat.one_pos

namespace Task

/-- The number of tasks that one takes, itself included. -/
def cost : Task → Nat
  | .lower t _ => t.lowerCost
  | .gather _ _ => 1
  | .close _ _ => 1

/-- The number of tasks that a list of them takes. -/
def costAll : List Task → Nat
  | [] => 0
  | task :: tasks => task.cost + costAll tasks

@[simp]
theorem costAll_append (as bs : List Task) : costAll (as ++ bs) = costAll as + costAll bs := by
  induction as with
  | nil => simp [costAll]
  | cons a as ih => simp [costAll, ih, Nat.add_assoc]

/-- Lowering several formulas under one sign. -/
@[simp]
theorem costAll_map_lower (ts : List Term) (sign : Bool) :
    costAll (ts.map (.lower · sign)) = Term.lowerCostAll ts := by
  induction ts with
  | nil => rfl
  | cons t ts ih => simp [costAll, Term.lowerCostAll, cost, ih]

/-! ### Expanding a formula -/

/-- The tasks that lower a conjunction or disjunction of several formulas under one sign. -/
def junction (op : Op) (args : List Term) (sign : Bool) : List Task :=
  args.map (.lower · sign) ++ [.gather op args.length]

/-- The formula that an atom is lowered to. -/
def literal (atom : Term) (sign : Bool) : Term :=
  if sign then atom else .neg atom

/-- What becomes of a formula that is to be lowered: the tasks that do it, or the literal that it is
lowered to. -/
def expand : Term → Bool → Except Fault (List Task ⊕ Term)
  | .node .not [t], sign => .ok (.inl [.lower t !sign])
  | .node .notEquals [s, t], sign => .ok (.inl [.lower (.node .equals [s, t]) !sign])
  | .node .nand [s, t], sign => .ok (.inl [.lower (.node .and [s, t]) !sign])
  | .node .nor [s, t], sign => .ok (.inl [.lower (.node .or [s, t]) !sign])
  | .node .xor [s, t], sign => .ok (.inl [.lower (.node .iff [s, t]) !sign])
  | .node .implies [s, t], sign => .ok (.inl [.lower (.node .or [.node .not [s], t]) sign])
  | .node .and args, sign => .ok (.inl (junction (if sign then .and else .or) args sign))
  | .node .or args, sign => .ok (.inl (junction (if sign then .or else .and) args sign))
  | .node .iff [s, t], sign => .ok (.inl [.lower s sign, .lower t true, .gather .iff 2])
  | .node .equals [s, t], sign => .ok (.inr (literal (.node .equals [s, t]) sign))
  | .node .less [s, t], sign => .ok (.inr (literal (.node .less [s, t]) sign))
  | .node .lessEq [s, t], sign => .ok (.inr (literal (.node .lessEq [s, t]) sign))
  | .node .greater [s, t], sign => .ok (.inr (literal (.node .greater [s, t]) sign))
  | .node .greaterEq [s, t], sign => .ok (.inr (literal (.node .greaterEq [s, t]) sign))
  | .node op args, _ => .error (.arity op args.length)
  | .quant q vars body, sign =>
    .ok (.inl [.lower body sign, .close (if sign then q else q.dual) vars])
  | atom, sign => .ok (.inr (literal atom sign))

/-- Expanding a formula takes one task off the work. -/
theorem costAll_expand {t : Term} {sign : Bool} {tasks : List Task}
    (h : expand t sign = .ok (.inl tasks)) : costAll tasks + 1 = t.lowerCost := by
  unfold expand at h
  split at h
  all_goals simp only [Except.ok.injEq, Sum.inl.injEq, reduceCtorEq] at h
  all_goals subst h
  all_goals
    simp [costAll, cost, junction, Term.lowerCost, Term.lowerCostAll, Op.lowerCost]
    omega

/-! ### Working through the tasks -/

/-- Works through a list of tasks, with the finished formulas on a stack, the last one on top. -/
def run : List Task → List Term → Except Fault (List Term)
  | [], done => .ok done
  | .lower t sign :: tasks, done =>
    match _h : expand t sign with
    | .ok (.inl first) => run (first ++ tasks) done
    | .ok (.inr literal) => run tasks (literal :: done)
    | .error fault => .error fault
  | .gather op count :: tasks, done =>
    let parts := done.take count
    if parts.length = count then run tasks (.node op parts.reverse :: done.drop count)
    else .error .missingResult
  | .close q vars :: tasks, done =>
    match done with
    | body :: done => run tasks (.quant q vars body :: done)
    | [] => run tasks []
termination_by tasks => costAll tasks
decreasing_by
  · have := costAll_expand _h
    simp only [costAll_append, costAll, cost]
    omega
  · have := t.lowerCost_pos
    simp only [costAll, cost]
    omega
  · simp [costAll, cost]
  · simp [costAll, cost]
  · simp [costAll, cost]

end Task

/-- The negation normal form of a formula, or of its negation if the sign is `false`. -/
def Term.lowerNot (t : Term) (sign : Bool) : Except Fault Term :=
  match Task.run [.lower t sign] [] with
  | .ok [result] => .ok result
  | .ok _ => .error .missingResult
  | .error fault => .error fault

end ClauseForm
