import ClauseForm.Proofs.Negation.Shape
import ClauseForm.Proofs.Worklist

/-!
# The work of lowering negations, round by round

`ClauseForm.Task.run` works off a list of tasks: each round takes the first task, puts new
tasks in its place and changes the stack of finished formulas (`ClauseForm.Task.turn`,
`ClauseForm.Task.run_cons`). A round takes more work away than it adds
(`ClauseForm.Task.decreases_turn`), although a task may be replaced by one for a larger
formula, as that of `a => b` is by one for `~a | b`.

What a task takes off the stack is there when its turn comes. The invariant is about the
tasks and the number of finished formulas alone (`ClauseForm.Task.Supplied`): every task
takes what it needs and leaves one formula, and in the end there is one. So it holds at
every stage of the work on any formula (`ClauseForm.Task.Stage.supplied`), whether or not
the formula keeps the argument counts.

What comes out is given by the rules on signs (`ClauseForm.Term.SignRules`), which the
recursion of `ClauseForm.Term.nnf` obeys, and nothing else does on formulas that keep the
argument counts (`ClauseForm.Term.SignRules.eq_nnf`).
-/

namespace ClauseForm

namespace Task

variable {t : Term} {sign : Bool} {task : Task} {tasks first : List Task} {done done' : List Term}
variable {n : Nat}

/-! ### One round -/

/-- What a task does: the tasks that take its place, and the finished formulas afterwards. -/
def turn : Task → List Term → Except Fault (List Task × List Term)
  | .lower t sign, done => (expand t sign).map fun
    | .inl first => (first, done)
    | .inr literal => ([], literal :: done)
  | .gather op count, done =>
    let parts := done.take count
    if parts.length = count then .ok ([], .node op parts.reverse :: done.drop count)
    else .error .missingResult
  | .close q vars, body :: done => .ok ([], .quant q vars body :: done)
  | .close _ _, [] => .ok ([], [])

/-- The work goes on after a round with what the round left. -/
theorem run_cons (task : Task) (tasks : List Task) (done : List Term) :
    run (task :: tasks) done = (task.turn done).bind fun next => run (next.1 ++ tasks) next.2 := by
  cases task with
  | lower t sign =>
    rw [turn]
    cases h : expand t sign with
    | error fault =>
      rw [run]
      split <;> simp_all [Except.map, Except.bind]
    | ok next =>
      cases next with
      | inl first => exact run_of_expand_tasks h tasks done
      | inr literal => exact run_of_expand_literal h tasks done
  | gather op count =>
    rw [run, turn]
    split <;> rfl
  | close q vars => cases done <;> rw [run] <;> rfl

/-- What a round can be: a task, the finished formulas it finds, the tasks that take its place, and
the finished formulas afterwards. -/
inductive Turns : Task → List Term → List Task → List Term → Prop
  /-- A formula makes room for its parts. -/
  | parts {t : Term} {sign : Bool} {first : List Task} (done : List Term) :
    expand t sign = .ok (.inl first) → Turns (.lower t sign) done first done
  /-- An atom is finished on the spot. -/
  | literal {t : Term} {sign : Bool} {l : Term} (done : List Term) :
    expand t sign = .ok (.inr l) → Turns (.lower t sign) done [] (l :: done)
  /-- The last finished formulas are put under an operator, in the order in which they came. -/
  | gather (op : Op) (parts done : List Term) :
    Turns (.gather op parts.length) (parts.reverse ++ done) [] (.node op parts :: done)
  /-- The last finished formula is put under a quantifier. -/
  | close (q : Quantifier) (vars : List Var) (body : Term) (done : List Term) :
    Turns (.close q vars) (body :: done) [] (.quant q vars body :: done)
  /-- A quantifier without a body is dropped. -/
  | drop (q : Quantifier) (vars : List Var) : Turns (.close q vars) [] [] []

/-- A round is one of these, if it does not fail. -/
theorem Turns.of_turn (h : task.turn done = .ok (first, done')) :
    Turns task done first done' := by
  cases task with
  | lower t sign =>
    rw [turn] at h
    cases hexpand : expand t sign with
    | error fault =>
      rw [hexpand] at h
      cases h
    | ok next =>
      rw [hexpand] at h
      cases next <;> cases h
      · exact .parts done hexpand
      · exact .literal done hexpand
  | gather op count =>
    rw [turn] at h
    split at h
    · rename_i hcount
      cases h
      have hgather := Turns.gather op (done.take count).reverse (done.drop count)
      rwa [List.length_reverse, hcount, List.reverse_reverse, List.take_append_drop] at hgather
    · cases h
  | close q vars =>
    cases done with
    | nil =>
      cases h
      exact .drop q vars
    | cons body done =>
      cases h
      exact .close q vars body done

/-- What a round leaves, the work goes on with. -/
theorem run_of_turn (h : task.turn done = .ok (first, done')) :
    run (task :: tasks) done = run (first ++ tasks) done' := by
  rw [run_cons, h]
  rfl

/-- Where the work comes to an end, no round on the way fails. -/
theorem exists_turn_of_run {results : List Term} (h : run (task :: tasks) done = .ok results) :
    ∃ next, task.turn done = .ok next := by
  rw [run_cons] at h
  cases hturn : task.turn done with
  | error fault =>
    rw [hturn] at h
    cases h
  | ok next => exact ⟨next, rfl⟩

/-! ### The work gets less -/

/-- **A round leaves less work** than it found. -/
theorem decreases_turn : Worklist.Decreases turn costAll := by
  intro task tasks done first done' h
  rw [costAll_append, costAll]
  refine Nat.add_lt_add_right ?_ _
  cases Turns.of_turn h with
  | parts _ hexpand => exact Nat.lt_of_succ_le (Nat.le_of_eq (costAll_expand hexpand))
  | @literal t => exact t.lowerCost_pos
  | gather | close | drop => exact Nat.one_pos

/-! ### What a task needs is there -/

/-- How many finished formulas a task takes off the stack. -/
def needs : Task → Nat
  | .lower _ _ => 0
  | .gather _ count => count
  | .close _ _ => 1

/-- With so many formulas finished, each of the tasks in turn finds what it needs, and one formula
is left over when all are worked off. Every task leaves one formula for those that it takes. -/
def Supplied : List Task → Nat → Prop
  | [], n => n = 1
  | task :: tasks, n => task.needs ≤ n ∧ Supplied tasks (n - task.needs + 1)

@[simp]
theorem supplied_lower_cons : Supplied (.lower t sign :: tasks) n ↔ Supplied tasks (n + 1) := by
  simp [Supplied, needs]

@[simp]
theorem supplied_gather_cons {op : Op} {count : Nat} :
    Supplied (.gather op count :: tasks) n ↔ count ≤ n ∧ Supplied tasks (n - count + 1) := by
  simp [Supplied, needs]

@[simp]
theorem supplied_close_cons {q : Quantifier} {vars : List Var} :
    Supplied (.close q vars :: tasks) n ↔ 1 ≤ n ∧ Supplied tasks (n - 1 + 1) := by
  simp [Supplied, needs]

/-- The tasks of several formulas leave as many behind. -/
theorem supplied_lowerAll_append (ts : List Term) :
    Supplied (ts.map (.lower · sign) ++ tasks) n ↔ Supplied tasks (n + ts.length) := by
  induction ts generalizing n with
  | nil => rfl
  | cons t ts ih =>
    rw [List.map_cons, List.cons_append, supplied_lower_cons, ih, List.length_cons,
      Nat.add_right_comm, Nat.add_assoc]

/-- Put together, the formulas of a conjunction or disjunction count as one. -/
theorem supplied_junction_append (op : Op) (args : List Term) :
    Supplied (junction op args sign ++ tasks) n ↔ Supplied tasks (n + 1) := by
  rw [junction, List.append_assoc, supplied_lowerAll_append, List.singleton_append,
    supplied_gather_cons, Nat.add_sub_cancel]
  exact and_iff_right (Nat.le_add_left _ _)

/-- The tasks for the parts of a formula leave one formula, like the task that they replace. -/
theorem supplied_expand (h : expand t sign = .ok (.inl first)) :
    Supplied (first ++ tasks) n ↔ Supplied tasks (n + 1) := by
  unfold expand at h
  split at h
  all_goals simp only [Except.ok.injEq, Sum.inl.injEq, reduceCtorEq] at h
  all_goals subst h
  all_goals simp [supplied_junction_append]

/-- **A round keeps the balance**: with what it leaves, the tasks behind it find what they need. -/
theorem Supplied.turn (hs : Supplied (task :: tasks) done.length)
    (h : task.turn done = .ok (first, done')) : Supplied (first ++ tasks) done'.length := by
  cases Turns.of_turn h with
  | parts _ hexpand => exact (supplied_expand hexpand).2 (supplied_lower_cons.1 hs)
  | literal => exact supplied_lower_cons.1 hs
  | gather op parts done => simpa using (supplied_gather_cons.1 hs).2
  | close q vars body done => exact (supplied_close_cons.1 hs).2
  | drop q vars => exact absurd (supplied_close_cons.1 hs).1 (by simp)

/-! ### The stages of the work -/

/-- What is pending and what is finished when so many tasks of lowering a formula are worked off. -/
abbrev Stage (t : Term) (sign : Bool) : Nat → List Task → List Term → Prop :=
  Worklist.Reached turn [.lower t sign] []

namespace Stage

/-- **At every stage the pending tasks find what they need.** -/
theorem supplied (h : Stage t sign n tasks done) : Supplied tasks done.length := by
  induction h with
  | start => simp [Supplied, needs]
  | step _ hturn ih => exact ih.turn hturn

/-- The work goes on from every stage as from the start. -/
theorem run_eq (h : Stage t sign n tasks done) : run tasks done = run [.lower t sign] [] := by
  induction h with
  | start => rfl
  | step _ hturn ih => rw [← run_of_turn hturn, ih]

/-- There are at most as many rounds as lowering the formula takes tasks. -/
theorem le_lowerCost (h : Stage t sign n tasks done) : n ≤ t.lowerCost := by
  have hcost := h.add_cost_le decreases_turn
  simp only [costAll, cost] at hcost
  omega

end Stage

end Task

namespace Term

/-! ### The rules -/

/-- The rules by which negations are pushed down: an atom keeps its sign, the connectives that hide
a negation are put differently, and the others pass the sign on. -/
structure SignRules (f : Term → Bool → Term) : Prop where
  atom : ∀ t sign, t.isAtom = true → f t sign = if sign then t else .neg t
  not : ∀ t sign, f (.neg t) sign = f t !sign
  notEquals : ∀ s t sign, f (.node .notEquals [s, t]) sign = f (.eq s t) !sign
  nand : ∀ s t sign, f (.node .nand [s, t]) sign = f (.conj [s, t]) !sign
  nor : ∀ s t sign, f (.node .nor [s, t]) sign = f (.disj [s, t]) !sign
  xor : ∀ s t sign, f (.node .xor [s, t]) sign = f (.iff s t) !sign
  implies : ∀ s t sign, f (.imp s t) sign = f (.disj [.neg s, t]) sign
  conj : ∀ args sign,
    f (.conj args) sign = .node (if sign then .and else .or) (args.map (f · sign))
  disj : ∀ args sign,
    f (.disj args) sign = .node (if sign then .or else .and) (args.map (f · sign))
  iff : ∀ s t sign, f (.iff s t) sign = .iff (f s sign) (f t true)
  quant : ∀ q vars body sign,
    f (.quant q vars body) sign = .quant (if sign then q else q.dual) vars (f body sign)

/-- The recursion obeys the rules. -/
theorem signRules_nnf : SignRules nnf where
  atom _ sign h := nnf_atom h sign
  not _ _ := rfl
  notEquals _ _ _ := rfl
  nand _ _ sign := by cases sign <;> rfl
  nor _ _ sign := by cases sign <;> rfl
  xor _ _ _ := rfl
  implies _ _ _ := rfl
  conj args sign := by rw [Term.conj, nnf, nnfAll_eq_map]
  disj args sign := by rw [Term.disj, nnf, nnfAll_eq_map]
  iff _ _ _ := rfl
  quant _ _ _ _ := rfl

/-- **The rules leave no choice.** -/
theorem SignRules.eq_nnf {f : Term → Bool → Term} (hf : SignRules f) {t : Term} {sign : Bool}
    (h : Signed t sign) : f t sign = t.nnf sign := by
  induction h with
  | atom sign ha => rw [hf.atom _ _ ha, nnf_atom ha, Task.literal]
  | notEquals s t sign => rw [hf.notEquals, hf.atom _ _ rfl, nnf, Task.literal, Term.eq]
  | @not t sign _ ih => exact (hf.not t sign).trans ih
  | conj _ ih => rw [nnf, nnfAll_eq_map, ← List.map_congr_left ih, ← hf.conj, Term.conj]
  | disj _ ih => rw [nnf, nnfAll_eq_map, ← List.map_congr_left ih, ← hf.disj, Term.disj]
  | @nand s t sign _ _ hs ht =>
    rw [hf.nand, hf.conj, nnf, nnfAll_eq_map]
    simp only [List.map_cons, List.map_nil, hs, ht]
    cases sign <;> rfl
  | @nor s t sign _ _ hs ht =>
    rw [hf.nor, hf.disj, nnf, nnfAll_eq_map]
    simp only [List.map_cons, List.map_nil, hs, ht]
    cases sign <;> rfl
  | @implies s t sign _ _ hs ht =>
    have hrule := hf.implies s t sign
    rw [imp] at hrule
    rw [hrule, hf.disj, nnf, List.map_cons, List.map_cons, List.map_nil, hf.not, hs, ht]
  | @iff s t sign _ _ hs ht => exact (hf.iff s t sign).trans (by rw [hs, ht]; rfl)
  | xor _ _ hs ht => rw [hf.xor, hf.iff, hs, ht, nnf]; rfl
  | quant _ ih => rw [hf.quant, ih, nnf]

end Term

open Term

/-! ### The whole work -/

/-- **Lowering negations ends with one formula, the one that the rules give.** On every well-formed
formula and under either sign there are at most as many rounds as the formula takes tasks. At every
stage the task whose turn it is finds the finished formulas that it needs and does not fail, and
the work goes on to the same end. When no task is left, the stack holds the normal form alone, which
the rules on signs determine. -/
theorem lowerNot_stages {t : Term} (ht : t.WellFormed) (sign : Bool) :
    SignRules nnf ∧ (∀ f, SignRules f → f t sign = t.nnf sign) ∧
      t.lowerNot sign = .ok (t.nnf sign) ∧
      (∃ n, Task.Stage t sign n [] [t.nnf sign]) ∧
      ∀ n tasks done, Task.Stage t sign n tasks done →
        n ≤ t.lowerCost ∧ Task.run tasks done = .ok [t.nnf sign] ∧
        (tasks = [] → done = [t.nnf sign]) ∧
        ∀ task rest, tasks = task :: rest →
          task.needs ≤ done.length ∧ ∃ next, task.turn done = .ok next := by
  have hk := ht.keepsArities
  have hrun : ∀ {n tasks done}, Task.Stage t sign n tasks done →
      Task.run tasks done = .ok [t.nnf sign] := by
    intro n tasks done h
    rw [h.run_eq, Task.run_lower hk, Task.run]
  have hend : ∀ {n done}, Task.Stage t sign n [] done → done = [t.nnf sign] := by
    intro n done h
    simpa [Task.run] using hrun h
  refine ⟨signRules_nnf, fun f hf => hf.eq_nnf (hk.signed sign), lowerNot_eq_nnf hk sign, ?_, ?_⟩
  · obtain ⟨n, done, h⟩ := Worklist.exists_reached_nil [.lower t sign] [] Task.decreases_turn
      fun n task tasks done h => Task.exists_turn_of_run (hrun h)
    exact ⟨n, hend h ▸ h⟩
  · intro n tasks done h
    refine ⟨h.le_lowerCost, hrun h, ?_, ?_⟩
    · rintro rfl
      exact hend h
    · rintro task rest rfl
      exact ⟨h.supplied.1, Task.exists_turn_of_run (hrun h)⟩

/-- The formula `~(p <~> ~![X]: ((q(X) => r) ~& X != a))`. -/
def turningExample : Term :=
  .neg (.node .xor [.const ⟨0, .declared⟩, .neg (.quant .all [⟨0⟩] (.node .nand [
    .imp (.call ⟨1, .declared⟩ [.var ⟨0⟩]) (.const ⟨2, .declared⟩),
    .node .notEquals [.var ⟨0⟩, .const ⟨3, .declared⟩]]))])

/-- The formula `~p <=> ?[X]: ((~q(X) | r) & ~(X = a))`. -/
def turnedExample : Term :=
  .iff (.neg (.const ⟨0, .declared⟩)) (.quant .exist [⟨0⟩] (.conj [
    .disj [.neg (.call ⟨1, .declared⟩ [.var ⟨0⟩]), .const ⟨2, .declared⟩],
    .neg (.eq (.var ⟨0⟩) (.const ⟨3, .declared⟩))]))

theorem lowerNot_stages_turningExample :
    turningExample.WellFormed ∧ turningExample.lowerNot false = .ok turnedExample ∧
      (∃ n, Task.Stage turningExample false n [] [turnedExample]) ∧
      ∀ n tasks done, Task.Stage turningExample false n tasks done →
        n ≤ 21 ∧ Task.run tasks done = .ok [turnedExample] ∧
        (tasks = [] → done = [turnedExample]) ∧
        ∀ task rest, tasks = task :: rest →
          task.needs ≤ done.length ∧ ∃ next, task.turn done = .ok next := by
  have hwell : turningExample.WellFormed := by decide
  exact ⟨hwell, (lowerNot_stages hwell false).2.2⟩

end ClauseForm
