import ClauseForm.Conversion.Distribution
import ClauseForm.Proofs.Conversion.Shape
import ClauseForm.Proofs.Semantics.Interpretation

/-!
# Flattening and distributing

Flattening lists what stands below the nested nodes of one operator, the *leaves*
of a term (`ClauseForm.Term.leaves`, `ClauseForm.Term.flatten_eq_leaves`). A term is
true when all its leaves below `&` are, and when some leaf of it below `|` is.
Distributing a disjunction over one of its members says the same
(`ClauseForm.Interpretation.holds_distribute`), and brings the conjunctions on top if
no other member is a conjunction (`ClauseForm.Term.raised_distribute`).
-/

universe u

namespace ClauseForm

/-- The members of a list with one place changed: the new one, and the old ones of all other
places. -/
theorem mem_set_iff {α : Type} {l : List α} {i : Fin l.length} {a m : α} :
    a ∈ l.set i m ↔ a = m ∨ ∃ j : Fin l.length, j ≠ i ∧ l.get j = a := by
  rw [List.mem_iff_getElem]
  constructor
  · rintro ⟨j, hj, rfl⟩
    rw [List.length_set] at hj
    rw [List.getElem_set]
    split
    · exact Or.inl rfl
    · rename_i hne
      exact Or.inr ⟨⟨j, hj⟩, fun heq => hne (congrArg Fin.val heq).symm, rfl⟩
  · rintro (rfl | ⟨j, hne, rfl⟩)
    · exact ⟨i, by simp, by simp⟩
    · refine ⟨j, by simp, ?_⟩
      rw [List.getElem_set_ne fun heq => hne (Fin.ext heq.symm)]
      rfl

namespace Term

variable {p : Term → Prop} {t : Term} {args : List Term}

/-! ### Flattening -/

mutual

/-- What stands below the nested nodes of `op` at the top of a term, from left to right. -/
def leaves (op : Op) : Term → List Term
  | .node o args => if o = op then leavesAll op args else [.node o args]
  | t => [t]

/-- What stands below the nested nodes of `op` at the top of several terms. -/
def leavesAll (op : Op) : List Term → List Term
  | [] => []
  | t :: ts => leaves op t ++ leavesAll op ts

end

theorem leavesAll_eq_flatMap (op : Op) (ts : List Term) :
    leavesAll op ts = ts.flatMap (leaves op) := by
  induction ts with
  | nil => rfl
  | cons t ts ih => rw [leavesAll, ih, List.flatMap_cons]

@[simp]
theorem leaves_node_self (op : Op) (args : List Term) :
    (Term.node op args).leaves op = args.flatMap (leaves op) := by
  rw [leaves, if_pos rfl, leavesAll_eq_flatMap]

theorem leaves_of_isOp_false {op : Op} (h : t.isOp op = false) : t.leaves op = [t] := by
  cases t with
  | node o args =>
    have ho : o ≠ op := fun he => by simp [isOp, op?, he] at h
    rw [leaves, if_neg ho]
  | _ => rw [leaves]; simp

/-- The loop adds the leaves of what is still to be looked at to what was found. -/
theorem flattenLoop_eq (op : Op) (todo found : List Term) :
    flattenLoop op todo found = found.reverse ++ todo.flatMap (leaves op) := by
  fun_induction flattenLoop op todo found with
  | case1 found => simp
  | case2 args rest found ih =>
    rw [ih, List.flatMap_append, List.flatMap_cons, leaves_node_self]
  | case3 o args rest found ho ih =>
    rw [ih, List.flatMap_cons, leaves, if_neg ho, List.reverse_cons, List.append_assoc]
  | case4 t rest found hnode ih =>
    have hop : t.isOp op = false := by
      cases t with
      | node o args => exact absurd rfl (hnode o args)
      | _ => rfl
    rw [ih, List.flatMap_cons, leaves_of_isOp_false hop, List.reverse_cons, List.append_assoc]

/-- **Flattening lists the leaves.** -/
theorem flatten_eq_leaves (op : Op) (t : Term) : t.flatten op = t.leaves op := by
  rw [flatten, flattenLoop_eq]
  simp

/-- The leaves of a term stand in it. -/
theorem mem_parts_of_mem_leaves {op : Op} {l : Term} (h : l ∈ t.leaves op) : l ∈ t.parts := by
  induction t using Term.induct with
  | node o args ih =>
    by_cases ho : o = op
    · subst ho
      rw [leaves_node_self, List.mem_flatMap] at h
      obtain ⟨a, ha, hl⟩ := h
      exact mem_parts_trans (ih a ha hl) (mem_parts_of_mem_args ha)
    · rw [leaves, if_neg ho, List.mem_singleton] at h
      exact h ▸ self_mem_parts _
  | _ =>
    rw [leaves_of_isOp_false rfl, List.mem_singleton] at h
    exact h ▸ self_mem_parts _

/-- Below the conjunctions stand disjunctions of literals. -/
theorem Raised.disjunctive_of_mem_leaves (h : Raised p t) :
    ∀ d ∈ t.leaves .and, Disjunctive p d := by
  induction h with
  | clause h =>
    rw [leaves_of_isOp_false h.isOp_and]
    simpa using h
  | conj _ ih =>
    rw [leaves_node_self, List.forall_mem_flatMap]
    exact ih

/-- Below the disjunctions stand literals. -/
theorem Disjunctive.isLiteral_of_mem_leaves (h : Disjunctive p t) :
    ∀ l ∈ t.leaves .or, l.isLiteral = true ∧ p l := by
  induction h with
  | literal hl hp =>
    rw [leaves_of_isOp_false (isOp_of_isLiteral hl rfl (by simp))]
    simpa using ⟨hl, hp⟩
  | disj _ ih =>
    rw [leaves_node_self, List.forall_mem_flatMap]
    exact ih

/-- The disjunction of `args`, distributed over the one conjunction among them, has its
conjunctions on top. -/
theorem raised_distribute {i : Fin args.length} (hi : Raised p (args.get i))
    (h : ∀ a ∈ args, a.isOp .and = false → Disjunctive p a)
    (hone : ∀ j : Fin args.length, j ≠ i → (args.get j).isOp .and = false) :
    Raised p (distribute args i) := by
  refine .conj fun d hd => ?_
  rw [List.mem_map, flatten_eq_leaves] at hd
  obtain ⟨m, hm, rfl⟩ := hd
  refine .clause (.disj fun a ha => ?_)
  rcases mem_set_iff.1 ha with rfl | ⟨j, hne, rfl⟩
  · exact hi.disjunctive_of_mem_leaves a hm
  · exact h _ (List.get_mem args j) (hone j hne)

/-- A disjunction distributed over one of its members has a clause for each leaf of it. -/
theorem length_leaves_distribute (args : List Term) (i : Fin args.length) :
    ((distribute args i).leaves .and).length = ((args.get i).leaves .and).length := by
  have hleaves : ∀ ms : List Term,
      (ms.flatMap fun m => leaves .and (.disj (args.set i m))).length = ms.length := by
    intro ms
    induction ms with
    | nil => rfl
    | cons m ms ih =>
      rw [List.flatMap_cons, List.length_append, ih, leaves_of_isOp_false rfl,
        List.length_singleton, List.length_cons, Nat.add_comm]
  rw [distribute, conj, flatten_eq_leaves, leaves_node_self, List.flatMap_map]
  exact hleaves _

end Term

/-! ### What the leaves say -/

namespace Interpretation

variable {D : Type u} (I : Interpretation D) (v : Var → D)

/-- A term is true when all its leaves below `&` are. -/
theorem forall_leaves_and (t : Term) : (∀ l ∈ t.leaves .and, I.Holds l v) ↔ I.Holds t v := by
  induction t using Term.induct with
  | node op args ih =>
    by_cases hop : op = .and
    · subst hop
      rw [Term.leaves_node_self, List.forall_mem_flatMap, holds_conj]
      exact forall_congr' fun a => imp_congr_right (ih a)
    · rw [Term.leaves, if_neg hop]
      simp
  | _ =>
    rw [Term.leaves_of_isOp_false rfl]
    simp

/-- A term is true when some leaf of it below `|` is. -/
theorem exists_leaves_or (t : Term) : (∃ l ∈ t.leaves .or, I.Holds l v) ↔ I.Holds t v := by
  induction t using Term.induct with
  | node op args ih =>
    by_cases hop : op = .or
    · subst hop
      rw [Term.leaves_node_self, holds_disj]
      simp only [List.mem_flatMap]
      constructor
      · rintro ⟨l, ⟨a, ha, hl⟩, hv⟩
        exact ⟨a, ha, (ih a ha).1 ⟨l, hl, hv⟩⟩
      · rintro ⟨a, ha, hv⟩
        obtain ⟨l, hl, hv⟩ := (ih a ha).2 hv
        exact ⟨l, ⟨a, ha, hl⟩, hv⟩
    · rw [Term.leaves, if_neg hop]
      simp
  | _ =>
    rw [Term.leaves_of_isOp_false rfl]
    simp

/-- **Distributing says the same.** -/
theorem holds_distribute (args : List Term) (i : Fin args.length) :
    I.Holds (.distribute args i) v ↔ I.Holds (.disj args) v := by
  have hset : ∀ m, (∃ a ∈ args.set i m, I.Holds a v) ↔
      I.Holds m v ∨ ∃ j : Fin args.length, j ≠ i ∧ I.Holds (args.get j) v := by
    intro m
    constructor
    · rintro ⟨a, ha, hv⟩
      rcases mem_set_iff.1 ha with rfl | ⟨j, hne, rfl⟩
      · exact Or.inl hv
      · exact Or.inr ⟨j, hne, hv⟩
    · rintro (hv | ⟨j, hne, hv⟩)
      · exact ⟨m, mem_set_iff.2 (Or.inl rfl), hv⟩
      · exact ⟨_, mem_set_iff.2 (Or.inr ⟨j, hne, rfl⟩), hv⟩
  have hargs : (∃ a ∈ args, I.Holds a v) ↔
      I.Holds (args.get i) v ∨ ∃ j : Fin args.length, j ≠ i ∧ I.Holds (args.get j) v := by
    have h := hset (args.get i)
    rwa [List.get_eq_getElem, List.set_getElem_self] at h
  rw [Term.distribute, Term.conj, Term.flatten_eq_leaves, holds_conj, List.forall_mem_map,
    Term.disj, holds_disj, hargs, ← I.forall_leaves_and v (args.get i)]
  simp only [Term.disj, holds_disj, hset]
  -- the other members do not depend on which leaf is put in
  constructor
  · intro h
    by_cases hrest : ∃ j : Fin args.length, j ≠ i ∧ I.Holds (args.get j) v
    · exact Or.inr hrest
    · exact Or.inl fun m hm => (h m hm).resolve_right hrest
  · rintro (h | h) m hm
    · exact Or.inl (h m hm)
    · exact Or.inr h

end Interpretation

end ClauseForm
