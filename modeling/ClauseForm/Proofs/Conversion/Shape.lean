import ClauseForm.Proofs.Negation.Composition

/-!
# Formulas on their way to clauses

Three shapes that a formula without quantifiers and biconditionals goes through:
literals under `&` and `|` in any order (`ClauseForm.Term.Junctive`), literals under
`|` alone (`ClauseForm.Term.Disjunctive`), and such disjunctions under `&`
(`ClauseForm.Term.Raised`). What else is known of the literals is a parameter of each.
-/

namespace ClauseForm

namespace Term

/-! ### Literals under conjunctions and disjunctions -/

/-- Whether a term is an atom or a negated atom. -/
def isLiteral : Term → Bool
  | .node .not [t] => t.isAtom
  | t => t.isAtom

variable {p : Term → Prop} {t : Term} {args : List Term}

/-- Literals under conjunctions and disjunctions. -/
inductive Junctive (p : Term → Prop) : Term → Prop
  /-- A literal. -/
  | literal {t : Term} : t.isLiteral = true → p t → Junctive p t
  /-- A conjunction. -/
  | conj {args : List Term} : (∀ a ∈ args, Junctive p a) → Junctive p (.node .and args)
  /-- A disjunction. -/
  | disj {args : List Term} : (∀ a ∈ args, Junctive p a) → Junctive p (.node .or args)

/-- Literals under disjunctions. -/
inductive Disjunctive (p : Term → Prop) : Term → Prop
  /-- A literal. -/
  | literal {t : Term} : t.isLiteral = true → p t → Disjunctive p t
  /-- A disjunction. -/
  | disj {args : List Term} : (∀ a ∈ args, Disjunctive p a) → Disjunctive p (.node .or args)

/-- Disjunctions of literals under conjunctions. -/
inductive Raised (p : Term → Prop) : Term → Prop
  /-- A disjunction of literals. -/
  | clause {t : Term} : Disjunctive p t → Raised p t
  /-- A conjunction. -/
  | conj {args : List Term} : (∀ a ∈ args, Raised p a) → Raised p (.node .and args)

theorem isLiteral_literal {a : Term} (h : a.isAtom = true) (sign : Bool) :
    (Task.literal a sign).isLiteral = true := by
  cases sign
  · exact h
  · cases a with
    | node op args =>
      cases op <;> simp_all [Task.literal, isLiteral, isAtom, Op.isPredicate]
    | _ => exact h

/-- A literal is an atom with a sign. -/
theorem exists_of_isLiteral (h : t.isLiteral = true) :
    ∃ a sign, a.isAtom = true ∧ t = Task.literal a sign := by
  unfold isLiteral at h
  split at h
  · exact ⟨_, false, h, rfl⟩
  · exact ⟨t, true, h, rfl⟩

/-- An atom is no connective. -/
theorem isOp_of_isAtom {op : Op} (h : t.isAtom = true) (hop : op.isPredicate = false) :
    t.isOp op = false := by
  cases t with
  | node o args =>
    simp only [isAtom, Bool.and_eq_true] at h
    refine beq_eq_false_iff_ne.2 fun he => ?_
    obtain rfl : o = op := Option.some.inj he
    simp [hop] at h
  | _ => rfl

/-- A literal is neither a conjunction nor a disjunction. -/
theorem isOp_of_isLiteral {op : Op} (h : t.isLiteral = true) (hop : op.isPredicate = false)
    (hn : op ≠ .not) : t.isOp op = false := by
  obtain ⟨a, sign, ha, rfl⟩ := exists_of_isLiteral h
  cases sign
  · simpa [Task.literal, neg, isOp, op?] using hn.symm
  · exact isOp_of_isAtom ha hop

theorem Disjunctive.junctive (h : Disjunctive p t) : Junctive p t := by
  induction h with
  | literal hl hp => exact .literal hl hp
  | disj _ ih => exact .disj ih

theorem Raised.junctive (h : Raised p t) : Junctive p t := by
  induction h with
  | clause h => exact h.junctive
  | conj _ ih => exact .conj ih

section Mono

variable {q : Term → Prop} (hpq : ∀ {t : Term}, t.isLiteral = true → p t → q t)

include hpq

theorem Junctive.mono (h : Junctive p t) : Junctive q t := by
  induction h with
  | literal hl ht => exact .literal hl (hpq hl ht)
  | conj _ ih => exact .conj ih
  | disj _ ih => exact .disj ih

theorem Disjunctive.mono (h : Disjunctive p t) : Disjunctive q t := by
  induction h with
  | literal hl ht => exact .literal hl (hpq hl ht)
  | disj _ ih => exact .disj ih

theorem Raised.mono (h : Raised p t) : Raised q t := by
  induction h with
  | clause h => exact .clause (h.mono hpq)
  | conj _ ih => exact .conj ih

end Mono

/-- A disjunction of literals is no conjunction. -/
theorem Disjunctive.isOp_and (h : Disjunctive p t) : t.isOp .and = false := by
  cases h with
  | literal hl _ => exact isOp_of_isLiteral hl rfl (by simp)
  | disj _ => rfl

/-- What has its conjunctions on top and is no conjunction is a disjunction of literals. -/
theorem Raised.disjunctive (h : Raised p t) (ht : t.isOp .and = false) : Disjunctive p t := by
  cases h with
  | clause h => exact h
  | conj _ => simp [isOp, op?] at ht

/-- Literals that are formulas make a formula. -/
theorem Junctive.isFormula (h : Junctive (·.isFormula = true) t) : t.isFormula = true := by
  induction h with
  | literal _ hf => exact hf
  | conj _ ih => exact isFormula_conj.2 ih
  | disj _ ih => exact isFormula_disj.2 ih

/-- A literal that is a formula holds no quantifiers. -/
theorem quantifierFree_of_isLiteral (h : t.isLiteral = true) (hf : t.isFormula = true) :
    t.QuantifierFree := by
  obtain ⟨a, sign, ha, rfl⟩ := exists_of_isLiteral h
  refine quantifierFree_literal sign (quantifierFree_atom ha ?_)
  cases sign
  · exact ((isFormula_connective rfl).1 hf).2 a (by simp)
  · exact hf

theorem Junctive.quantifierFree (h : Junctive (·.isFormula = true) t) : t.QuantifierFree := by
  induction h with
  | literal hl hf => exact quantifierFree_of_isLiteral hl hf
  | conj _ ih | disj _ ih => exact quantifierFree_node.2 ih

/-- A disjunction of two. -/
theorem Junctive.disj_pair {s t : Term} (hs : Junctive p s) (ht : Junctive p t) :
    Junctive p (.node .or [s, t]) :=
  .disj (forall_mem_pair.2 ⟨hs, ht⟩)

/-- Literals under conjunctions and disjunctions are in normal form. -/
theorem Junctive.normal (h : Junctive p t) : t.Normal := by
  induction h with
  | literal hl _ =>
    obtain ⟨a, sign, ha, rfl⟩ := exists_of_isLiteral hl
    exact normal_literal ha sign
  | conj _ ih => exact .conj ih
  | disj _ ih => exact .disj ih

/-- So they stay as they are. -/
theorem Junctive.nnf_eq (h : Junctive p t) : t.nnf true = t :=
  h.normal.nnf_eq

theorem isLiteral_nnf (h : t.isLiteral = true) (sign : Bool) : (t.nnf sign).isLiteral = true := by
  obtain ⟨a, sign', ha, rfl⟩ := exists_of_isLiteral h
  rw [nnf_literal ha]
  exact isLiteral_literal ha _

/-- Whatever the sign, the normal form of literals under conjunctions and disjunctions is made of
literals over the same atoms. -/
theorem Junctive.nnf_of (hp : ∀ {a sign}, p (Task.literal a sign) → ∀ sign, p (Task.literal a sign))
    (h : Junctive p t) (sign : Bool) : Junctive p (t.nnf sign) := by
  induction h with
  | literal hl ht =>
    obtain ⟨a, sign', ha, rfl⟩ := exists_of_isLiteral hl
    rw [nnf_literal ha]
    exact .literal (isLiteral_literal ha _) (hp ht _)
  | conj _ ih | disj _ ih =>
    rw [Term.nnf, nnfAll_eq_map]
    cases sign
    all_goals first
      | exact .conj (List.forall_mem_map.2 ih)
      | exact .disj (List.forall_mem_map.2 ih)

/-- A literal is a formula whichever its sign. -/
theorem isFormula_of_literal {a : Term} {sign : Bool} (h : (Task.literal a sign).isFormula = true) :
    a.isFormula = true := by
  cases sign
  · exact ((isFormula_connective rfl).1 h).2 a (by simp)
  · exact h

theorem Junctive.nnf (h : Junctive (·.isFormula = true) t) (sign : Bool) :
    Junctive (·.isFormula = true) (t.nnf sign) :=
  h.nnf_of (fun ha sign => isFormula_literal sign (isFormula_of_literal ha)) sign

end Term

end ClauseForm
