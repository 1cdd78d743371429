import ClauseForm.NegationNormal
import ClauseForm.Proofs.Syntax.Formula

/-!
# Negation normal form by recursion

`ClauseForm.Term.lowerNot` works through a list of tasks. Here stands the same
normal form as a recursion that carries the sign down
(`ClauseForm.Term.nnf`), and the proof that on every term that keeps the argument
counts the work comes to an end without a fault, and with this result
(`ClauseForm.Term.lowerNot_eq_nnf`).

What carries the proof is that a task leaves alone what is pending behind it and
what is finished below it (`ClauseForm.Task.run_lower`).
-/

namespace ClauseForm

namespace Term

mutual

/-- The negation normal form of a formula, or of its negation if the sign is `false`. -/
def nnf : Term → Bool → Term
  | .node .not [t], sign => nnf t !sign
  | .node .notEquals args, sign => Task.literal (.node .equals args) !sign
  | .node .nand args, sign => .node (if sign then .or else .and) (nnfAll args !sign)
  | .node .nor args, sign => .node (if sign then .and else .or) (nnfAll args !sign)
  | .node .xor [s, t], sign => .node .iff [nnf s !sign, nnf t true]
  | .node .implies [s, t], sign => .node (if sign then .or else .and) [nnf s !sign, nnf t sign]
  | .node .and args, sign => .node (if sign then .and else .or) (nnfAll args sign)
  | .node .or args, sign => .node (if sign then .or else .and) (nnfAll args sign)
  | .node .iff [s, t], sign => .node .iff [nnf s sign, nnf t true]
  | .quant q vars body, sign => .quant (if sign then q else q.dual) vars (nnf body sign)
  | atom, sign => Task.literal atom sign

/-- The negation normal forms of several formulas under one sign. -/
def nnfAll : List Term → Bool → List Term
  | [], _ => []
  | t :: ts, sign => nnf t sign :: nnfAll ts sign

end

@[simp]
theorem nnfAll_eq_map (ts : List Term) (sign : Bool) : nnfAll ts sign = ts.map (nnf · sign) := by
  induction ts with
  | nil => rfl
  | cons t ts ih => rw [nnfAll, ih, List.map_cons]

end Term

namespace Task

variable {t : Term} {sign : Bool}

/-! ### What one task does -/

/-- A formula that is replaced by tasks for its parts. -/
theorem run_of_expand_tasks {first : List Task} (h : expand t sign = .ok (.inl first))
    (tasks : List Task) (done : List Term) :
    run (.lower t sign :: tasks) done = run (first ++ tasks) done := by
  rw [run]
  split <;> simp_all

/-- A formula that is finished on the spot. -/
theorem run_of_expand_literal {l : Term} (h : expand t sign = .ok (.inr l)) (tasks : List Task)
    (done : List Term) : run (.lower t sign :: tasks) done = run tasks (l :: done) := by
  rw [run]
  split <;> simp_all

/-- The finished arguments of an operator are put together in their order. -/
theorem run_gather (op : Op) (xs : List Term) (tasks : List Task) (done : List Term) :
    run (.gather op xs.length :: tasks) (xs.reverse ++ done) = run tasks (.node op xs :: done) := by
  rw [run]
  simp

/-- The finished body of a quantifier is put under it. -/
theorem run_close (q : Quantifier) (vars : List Var) (body : Term) (tasks : List Task)
    (done : List Term) :
    run (.close q vars :: tasks) (body :: done) = run tasks (.quant q vars body :: done) := by
  rw [run]

/-! ### What the tasks of a formula do -/

/-- Working off the task of lowering a formula leaves its normal form on top of what was finished
before, and everything else as it was. -/
def Lowers (t : Term) : Prop :=
  ∀ sign tasks done, run (.lower t sign :: tasks) done = run tasks (t.nnf sign :: done)

/-- Lowering several formulas leaves their normal forms on the stack, the last one on top. -/
theorem run_lowerAll {ts : List Term} (h : ∀ t ∈ ts, Lowers t) (sign : Bool) (tasks : List Task)
    (done : List Term) :
    run (ts.map (.lower · sign) ++ tasks) done =
      run tasks ((ts.map (Term.nnf · sign)).reverse ++ done) := by
  induction ts generalizing done with
  | nil => rfl
  | cons t ts ih =>
    rw [List.map_cons, List.cons_append, h t List.mem_cons_self,
      ih (fun s hs => h s (List.mem_cons_of_mem t hs)), List.map_cons, List.reverse_cons,
      List.append_assoc, List.singleton_append]

/-- Lowering what stands below a conjunction or disjunction puts it together again. -/
theorem run_junction {ts : List Term} (h : ∀ t ∈ ts, Lowers t) (op : Op) (sign : Bool)
    (tasks : List Task) (done : List Term) :
    run (junction op ts sign ++ tasks) done =
      run tasks (.node op (ts.map (Term.nnf · sign)) :: done) := by
  have hlength : ts.length = (ts.map (Term.nnf · sign)).length := (List.length_map ..).symm
  rw [junction, List.append_assoc, run_lowerAll h, List.singleton_append, hlength, run_gather]

/-- The two sides of a biconditional; only the left one carries the sign. -/
theorem run_iff {s t : Term} (hs : Lowers s) (ht : Lowers t) (sign : Bool) (tasks : List Task)
    (done : List Term) :
    run (.lower (.node .iff [s, t]) sign :: tasks) done =
      run tasks (.node .iff [s.nnf sign, t.nnf true] :: done) := by
  rw [run_of_expand_tasks rfl, List.cons_append, List.cons_append, List.singleton_append, hs, ht]
  exact run_gather .iff [s.nnf sign, t.nnf true] tasks done

/-- A negation passes its sign on. -/
theorem lowers_not {t : Term} (h : Lowers t) : Lowers (.node .not [t]) := by
  intro sign tasks done
  rw [run_of_expand_tasks rfl, List.singleton_append, h, Term.nnf]

/-- A term that keeps the argument counts is lowered to its normal form. -/
theorem run_lower {t : Term} (h : t.KeepsArities) : Lowers t := by
  induction t using Term.induct with
  | node op args ih =>
    obtain ⟨harity, hargs⟩ := Term.keepsArities_node.1 h
    have hlower : ∀ a ∈ args, Lowers a := fun a ha => ih a ha (hargs a ha)
    intro sign tasks done
    cases op with
    | and | or =>
      rw [run_of_expand_tasks rfl, run_junction hlower, Term.nnf, Term.nnfAll_eq_map]
    | not =>
      obtain ⟨s, rfl⟩ := Op.exists_of_takes_one rfl harity
      exact lowers_not (hlower s (by simp)) sign tasks done
    | equals | less | lessEq | greater | greaterEq =>
      obtain ⟨s, t, rfl⟩ := Op.exists_of_takes_two rfl harity
      rw [run_of_expand_literal rfl, Term.nnf]
      all_goals simp
    | notEquals =>
      obtain ⟨s, t, rfl⟩ := Op.exists_of_takes_two rfl harity
      rw [run_of_expand_tasks rfl, List.singleton_append, run_of_expand_literal rfl, Term.nnf]
    | nand | nor =>
      obtain ⟨s, t, rfl⟩ := Op.exists_of_takes_two rfl harity
      rw [run_of_expand_tasks rfl, List.singleton_append, run_of_expand_tasks rfl,
        run_junction hlower, Term.nnf, Term.nnfAll_eq_map]
      -- the negated junction is the dual one of what the sign asks for
      cases sign <;> rfl
    | xor =>
      obtain ⟨s, t, rfl⟩ := Op.exists_of_takes_two rfl harity
      rw [run_of_expand_tasks rfl, List.singleton_append,
        run_iff (hlower s (by simp)) (hlower t (by simp)), Term.nnf]
    | iff =>
      obtain ⟨s, t, rfl⟩ := Op.exists_of_takes_two rfl harity
      rw [run_iff (hlower s (by simp)) (hlower t (by simp)), Term.nnf]
    | implies =>
      obtain ⟨s, t, rfl⟩ := Op.exists_of_takes_two rfl harity
      have hsides : ∀ a ∈ [Term.node .not [s], t], Lowers a := by
        rintro a (_ | ⟨_, _ | ⟨_, h⟩⟩)
        · exact lowers_not (hlower s (by simp))
        · exact hlower t (by simp)
        · cases h
      rw [run_of_expand_tasks rfl, List.singleton_append, run_of_expand_tasks rfl,
        run_junction hsides, List.map_cons, Term.nnf, List.map_cons, List.map_nil, Term.nnf]
  | quant q vars body ih =>
    intro sign tasks done
    have hbody := ih (Term.keepsArities_quant.1 h)
    rw [run_of_expand_tasks rfl, List.cons_append, hbody, List.singleton_append, run_close,
      Term.nnf]
  | _ =>
    intro sign tasks done
    rw [run_of_expand_literal rfl, Term.nnf]
    all_goals simp

end Task

/-- **The work comes to an end with the normal form**, and with nothing else on the stack. -/
theorem Term.lowerNot_eq_nnf {t : Term} (h : t.KeepsArities) (sign : Bool) :
    t.lowerNot sign = .ok (t.nnf sign) := by
  have hrun : Task.run [.lower t sign] [] = .ok [t.nnf sign] := by
    rw [Task.run_lower h, Task.run]
  rw [lowerNot, hrun]

end ClauseForm
