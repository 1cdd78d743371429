import ClauseForm.Proofs.Conversion.Flattening
import ClauseForm.Proofs.Syntax.Positions
import ClauseForm.Proofs.Worklist

/-!
# Which terms flattening finds, and where

Flattening lists the terms with another top that are reached through nodes of one operator
only, each of their positions once and from left to right
(`ClauseForm.Term.leftToRight_leaves`). It takes the terms from a list, puts what stands
below a node in front of the others, and keeps every other term
(`ClauseForm.Term.flattenRound`); at every stage what is found and the leaves of what is
still to be looked at make up the result (`ClauseForm.Term.FlattenStage.leaves_eq`).

A disjunction that is distributed over one of its members becomes a conjunction of
disjunctions, one for each leaf of that member, with the leaf in its place
(`ClauseForm.Term.forall₂_distribute`).
-/

universe u

namespace ClauseForm

namespace Term

variable {op : Op} {t : Term} {args : List Term}

/-! ### Leaves and their positions -/

/-- At the position stands a term with another top than `op`, and only nodes of `op` are gone
through on the way. -/
def LeafAt (op : Op) (t : Term) (p : Position) (s : Term) : Prop :=
  t.LeadsTo (·.isOp op = true) p s ∧ s.isOp op = false

/-- A term with another top is its only leaf. -/
theorem leafAt_of_isOp_false (h : t.isOp op = false) {p : Position} {s : Term} :
    t.LeafAt op p s ↔ p = [] ∧ s = t := by
  rw [LeafAt, leadsTo_iff]
  simp only [h, Bool.false_eq_true, false_and, or_false]
  exact ⟨And.left, fun hs => ⟨hs, hs.2 ▸ h⟩⟩

/-- The leaves of a node are those of its arguments. -/
theorem leafAt_node_self {p : Position} {s : Term} :
    (Term.node op args).LeafAt op p s ↔ Below (LeafAt op) args p s := by
  have htop : (Term.node op args).isOp op = true := by simp [isOp, op?]
  rw [LeafAt, leadsTo_iff]
  constructor
  · rintro ⟨⟨rfl, rfl⟩ | ⟨-, i, a, q, rfl, ha, h⟩, hs⟩
    · simp [htop] at hs
    · exact ⟨i, a, q, rfl, ha, h, hs⟩
  · rintro ⟨i, a, q, rfl, ha, h, hs⟩
    exact ⟨.inr ⟨htop, i, a, q, rfl, ha, h⟩, hs⟩

/-- **The leaves are listed from left to right.** -/
theorem leftToRight_leaves (op : Op) (t : Term) : LeftToRight (t.LeafAt op) (t.leaves op) := by
  have hother : ∀ t : Term, t.isOp op = false → LeftToRight (t.LeafAt op) (t.leaves op) := by
    intro t h
    rw [leaves_of_isOp_false h]
    exact (leftToRight_top t).congr fun p s => (leafAt_of_isOp_false h).symm
  induction t using Term.induct with
  | node o args ih =>
    by_cases ho : o = op
    · subst ho
      rw [leaves_node_self]
      exact (leftToRight_below ih).congr fun p s => leafAt_node_self.symm
    · exact hother _ (by simpa [isOp, op?] using ho)
  | _ => exact hother _ rfl

/-! ### The loop, round by round -/

/-- One round of flattening: what stands below a node of `op` is still to be looked at, any other
term is found. -/
def flattenRound (op : Op) (t : Term) (found : List Term) :
    Except Fault (List Term × List Term) :=
  .ok (if t.isOp op then (t.args, found) else ([], t :: found))

theorem flattenRound_node (op : Op) (args found : List Term) :
    flattenRound op (.node op args) found = .ok (args, found) := by
  simp [flattenRound, isOp, op?, Term.args]

theorem flattenRound_of_isOp_false (h : t.isOp op = false) (found : List Term) :
    flattenRound op t found = .ok ([], t :: found) := by
  simp [flattenRound, h]

/-- The top of a term is `op`, or it is not. -/
theorem isOp_cases (op : Op) (t : Term) : (∃ args, t = .node op args) ∨ t.isOp op = false := by
  cases t with
  | node o args =>
    by_cases ho : o = op
    · exact .inl ⟨args, by rw [ho]⟩
    · exact .inr (by simpa [isOp, op?] using ho)
  | _ => exact .inr rfl

/-- A round takes one step off. -/
theorem decreases_flattenRound (op : Op) :
    Worklist.Decreases (flattenRound op) flattenCostAll := by
  intro t todo found first found' h
  rw [flattenCostAll_append, flattenCostAll]
  refine Nat.add_lt_add_right ?_ _
  rcases isOp_cases op t with ⟨args, rfl⟩ | ht
  · rw [flattenRound_node] at h
    cases h
    rw [flattenCost]
    omega
  · rw [flattenRound_of_isOp_false ht] at h
    cases h
    exact flattenCost_pos t

/-- What is found and the leaves of what is still to be looked at stay the same in a round. -/
theorem leaves_of_flattenRound {todo found first found' : List Term}
    (h : flattenRound op t found = .ok (first, found')) :
    found'.reverse ++ (first ++ todo).flatMap (leaves op) =
      found.reverse ++ (t :: todo).flatMap (leaves op) := by
  rcases isOp_cases op t with ⟨args, rfl⟩ | ht
  · rw [flattenRound_node] at h
    cases h
    rw [List.flatMap_append, List.flatMap_cons, leaves_node_self]
  · rw [flattenRound_of_isOp_false ht] at h
    cases h
    rw [List.nil_append, List.flatMap_cons, leaves_of_isOp_false ht, List.reverse_cons,
      List.append_assoc]

/-- What is still to be looked at and what is found after so many rounds of flattening a term. -/
abbrev FlattenStage (op : Op) (t : Term) : Nat → List Term → List Term → Prop :=
  Worklist.Reached (flattenRound op) [t] []

namespace FlattenStage

variable {n : Nat} {todo found : List Term}

/-- **At every stage what is found and the leaves of what is still to be looked at are all the
leaves**, in their order. -/
theorem leaves_eq (h : FlattenStage op t n todo found) :
    found.reverse ++ todo.flatMap (leaves op) = t.leaves op := by
  induction h with
  | start => simp
  | step _ hround ih => rw [leaves_of_flattenRound hround, ih]

/-- The loop goes on from every stage to the same result. -/
theorem flattenLoop_eq_flatten (h : FlattenStage op t n todo found) :
    flattenLoop op todo found = t.flatten op := by
  rw [flattenLoop_eq, h.leaves_eq, flatten_eq_leaves]

/-- There are at most as many rounds as flattening the term takes steps. -/
theorem le_flattenCost (h : FlattenStage op t n todo found) : n ≤ t.flattenCost := by
  have hcost := h.add_cost_le (decreases_flattenRound op)
  simp only [flattenCostAll] at hcost
  omega

/-- With nothing left to be looked at, the result is found, its last member first. -/
theorem eq_reverse (h : FlattenStage op t n [] found) : found = (t.flatten op).reverse := by
  rw [← h.flattenLoop_eq_flatten, flattenLoop, List.reverse_reverse]

end FlattenStage

/-- The loop ends. -/
theorem exists_flattenStage (op : Op) (t : Term) :
    ∃ n, FlattenStage op t n [] (t.flatten op).reverse := by
  obtain ⟨n, found, h⟩ := Worklist.exists_reached_nil [t] [] (decreases_flattenRound op)
    fun _ _ _ _ _ => ⟨_, rfl⟩
  exact ⟨n, FlattenStage.eq_reverse h ▸ h⟩

/-! ### One disjunction for each leaf -/

/-- The term is the disjunction of `args` with `member` in the place `i`, and all else as it was. -/
def PutIn (args : List Term) (i : Fin args.length) (member disjunction : Term) : Prop :=
  ∃ members, disjunction = .disj members ∧ members.length = args.length ∧
    members[i.val]? = some member ∧ ∀ j, j ≠ i.val → members[j]? = args[j]?

/-- Distributing makes one disjunction for each leaf, in their order. -/
theorem forall₂_distribute (args : List Term) (i : Fin args.length) :
    ∃ ds, distribute args i = .conj ds ∧
      List.Forall₂ (PutIn args i) (flatten .and (args.get i)) ds := by
  refine ⟨_, rfl, List.forall₂_map_right_iff.2 (List.forall₂_same.2 fun m _ => ?_)⟩
  refine ⟨args.set i m, rfl, List.length_set .., by simp, fun j hj => ?_⟩
  rw [List.getElem?_set_ne (Ne.symm hj)]

end Term

open Term

/-- **Flattening and distributing.** Flattening a term under an operator comes to an end and finds
the terms with another top that are reached through nodes of the operator only, from left to right
and each of their positions once; what it has found at any stage is the beginning of the result.
And the disjunction of some terms, distributed over any one of them, is the conjunction of the
disjunctions in which a term found in that one stands in its place, and says the same. -/
theorem flatten_distribute :
    (∀ op t, LeftToRight (LeafAt op t) (flatten op t) ∧
      (∃ n, FlattenStage op t n [] (flatten op t).reverse) ∧
      ∀ n todo found, FlattenStage op t n todo found →
        n ≤ t.flattenCost ∧ flattenLoop op todo found = flatten op t ∧
          found.reverse ++ todo.flatMap (flatten op) = flatten op t) ∧
    ∀ (args : List Term) (i : Fin args.length),
      (∃ ds, distribute args i = .conj ds ∧
        List.Forall₂ (PutIn args i) (flatten .and (args.get i)) ds) ∧
      ∀ {D : Type u} (I : Interpretation D) (v : Var → D),
        I.Holds (distribute args i) v ↔ I.Holds (.disj args) v := by
  refine ⟨fun op t => ⟨?_, exists_flattenStage op t, fun n todo found h => ?_⟩, fun args i => ?_⟩
  · rw [flatten_eq_leaves]
    exact leftToRight_leaves op t
  · have hflatten : flatten op = leaves op := funext (flatten_eq_leaves op)
    refine ⟨h.le_flattenCost, h.flattenLoop_eq_flatten, ?_⟩
    rw [hflatten, h.leaves_eq]
  · exact ⟨forall₂_distribute args i, fun I v => I.holds_distribute v args i⟩

/-- The term `&(&(), &(p, &(), |(q)), ~(&(r)))`. -/
def nestedConjunction : Term :=
  .conj [.conj [], .conj [.const ⟨0, .declared⟩, .conj [], .disj [.const ⟨1, .declared⟩]],
    .neg (.conj [.const ⟨2, .declared⟩])]

/-- The terms `p`, `|(q)` and `~(&(r))`. -/
def nestedLeaves : List Term :=
  [.const ⟨0, .declared⟩, .disj [.const ⟨1, .declared⟩], .neg (.conj [.const ⟨2, .declared⟩])]

theorem flatten_distribute_nestedConjunction :
    LeftToRight (LeafAt .and nestedConjunction) nestedLeaves ∧
      (∃ n, FlattenStage .and nestedConjunction n [] nestedLeaves.reverse) ∧
      (∀ t : Term, ∀ {D : Type} (I : Interpretation D) (v : Var → D),
        I.Holds (.conj (nestedLeaves.map fun l => .disj [t, l])) v ↔
          I.Holds (.disj [t, nestedConjunction]) v) ∧
      ∀ t : Term, ∀ {D : Type} (I : Interpretation D) (v : Var → D),
        I.Holds (.conj []) v ↔ I.Holds (.disj [t, .conj []]) v := by
  have hnested : flatten .and nestedConjunction = nestedLeaves := flatten_eq_leaves .and _
  have hempty : flatten .and (.conj []) = [] := flatten_eq_leaves .and _
  obtain ⟨hflatten, hdistribute⟩ := flatten_distribute.{0}
  obtain ⟨hleaves, hend, -⟩ := hflatten .and nestedConjunction
  refine ⟨hnested ▸ hleaves, hnested ▸ hend, fun t D I v => ?_, fun t D I v => ?_⟩
  · have h := (hdistribute [t, nestedConjunction] ⟨1, Nat.one_lt_two⟩).2 I v
    rw [distribute, Fin.getElem_fin, List.getElem_cons_succ, List.getElem_cons_zero, hnested] at h
    exact h
  · have h := (hdistribute [t, .conj []] ⟨1, Nat.one_lt_two⟩).2 I v
    rw [distribute, Fin.getElem_fin, List.getElem_cons_succ, List.getElem_cons_zero, hempty] at h
    exact h

end ClauseForm
