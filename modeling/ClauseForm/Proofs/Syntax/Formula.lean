import Mathlib.Data.List.Forall2
import ClauseForm.Proofs.Syntax.Parts

/-!
# First-order formulas

Among all terms, those that a logician would write: *objects*
(`ClauseForm.Term.isObject`), which are made of variables, function symbols and
constants, and *formulas* (`ClauseForm.Term.isFormula`), whose connectives and
quantifiers stand only above atoms, each over as many arguments as it takes. An
atom is a truth value, a function symbol standing alone, or a call, an equation
or a comparison over objects.

Biconditionals deserve a closer look, because negation normal form keeps them: a
quantifier below one of them stands there positively and negatively at once. A
formula has *open sides* (`ClauseForm.Term.OpenSides`) if that does not happen.
-/

namespace ClauseForm

theorem forall_mem_pair {α : Type} {p : α → Prop} {a b : α} : (∀ x ∈ [a, b], p x) ↔ p a ∧ p b := by
  rw [List.forall_mem_cons, List.forall_mem_singleton]

section Related

variable {α β : Type} {R : α → β → Prop} {as : List α} {bs : List β}

/-- What stands in the second of two lists that are related place by place is related to something
in the first. -/
theorem exists_of_mem_forall₂ (h : List.Forall₂ R as bs) : ∀ b ∈ bs, ∃ a ∈ as, R a b := by
  induction h with
  | nil => simp
  | cons hd _ ih =>
    rw [List.forall_mem_cons]
    refine ⟨⟨_, List.mem_cons_self, hd⟩, fun b hb => ?_⟩
    obtain ⟨a, ha, hab⟩ := ih b hb
    exact ⟨a, List.mem_cons_of_mem _ ha, hab⟩

/-- What the relation carries over from place to place, it carries over from list to list. -/
theorem forall_mem_of_forall₂ {p : α → Prop} {q : β → Prop} (h : List.Forall₂ R as bs)
    (hR : ∀ {a b}, R a b → p a → q b) (hp : ∀ a ∈ as, p a) : ∀ b ∈ bs, q b := by
  intro b hb
  obtain ⟨a, ha, hab⟩ := exists_of_mem_forall₂ h b hb
  exact hR hab (hp a ha)

/-- What the relation says of the second of two things holds throughout the second list. -/
theorem forall_mem_right_of_forall₂ {q : β → Prop} (h : List.Forall₂ R as bs)
    (hR : ∀ {a b}, R a b → q b) : ∀ b ∈ bs, q b :=
  forall_mem_of_forall₂ h (fun hab _ => hR hab) fun _ _ => trivial

end Related

/-- Whether the operator is a predicate over objects, rather than a connective over formulas. -/
def Op.isPredicate : Op → Bool
  | .equals | .notEquals | .less | .lessEq | .greater | .greaterEq => true
  | _ => false

namespace Term

/-! ### Objects -/

mutual

/-- Whether a term is made of variables, function symbols and constants only. -/
def isObject : Term → Bool
  | .call _ args => allObjects args
  | .node _ _ | .quant _ _ _ => false
  | _ => true

/-- Whether several terms are all made of variables, function symbols and constants only. -/
def allObjects : List Term → Bool
  | [] => true
  | t :: ts => isObject t && allObjects ts

end

@[simp]
theorem allObjects_eq_true {ts : List Term} :
    allObjects ts = true ↔ ∀ t ∈ ts, t.isObject = true := by
  induction ts with
  | nil => simp [allObjects]
  | cons t ts ih => simp [allObjects, ih]

@[simp]
theorem isObject_call {f : FunSym} {args : List Term} :
    (Term.call f args).isObject = true ↔ ∀ a ∈ args, a.isObject = true :=
  allObjects_eq_true

/-- Objects hold no quantifiers. -/
theorem QuantifierFree.of_isObject {t : Term} (h : t.isObject = true) : t.QuantifierFree := by
  induction t using Term.induct with
  | call f args ih => exact quantifierFree_call.2 fun a ha => ih a ha (isObject_call.1 h a ha)
  | node op args ih => simp [isObject] at h
  | quant q vars body ih => simp [isObject] at h
  | _ => simp [QuantifierFree, isQuant]

/-! ### Formulas -/

mutual

/-- Whether a term is a formula of first-order logic. -/
def isFormula : Term → Bool
  | .bool _ | .const _ => true
  | .call _ args => allObjects args
  | .node op args =>
    op.takes args.length && if op.isPredicate then allObjects args else allFormulas args
  | .quant _ _ body => isFormula body
  | _ => false

/-- Whether several terms are all formulas of first-order logic. -/
def allFormulas : List Term → Bool
  | [] => true
  | t :: ts => isFormula t && allFormulas ts

end

@[simp]
theorem allFormulas_eq_true {ts : List Term} :
    allFormulas ts = true ↔ ∀ t ∈ ts, t.isFormula = true := by
  induction ts with
  | nil => simp [allFormulas]
  | cons t ts ih => simp [allFormulas, ih]

@[simp]
theorem isFormula_call {f : FunSym} {args : List Term} :
    (Term.call f args).isFormula = true ↔ ∀ a ∈ args, a.isObject = true :=
  allObjects_eq_true

@[simp]
theorem isFormula_quant {q : Quantifier} {vars : List Var} {body : Term} :
    (Term.quant q vars body).isFormula = true ↔ body.isFormula = true := .rfl

/-- A predicate over objects is a formula. -/
theorem isFormula_predicate {op : Op} {args : List Term} (h : op.isPredicate = true) :
    (Term.node op args).isFormula = true ↔
      op.takes args.length = true ∧ ∀ a ∈ args, a.isObject = true := by
  simp [isFormula, h]

/-- A connective over formulas is a formula. -/
theorem isFormula_connective {op : Op} {args : List Term} (h : op.isPredicate = false) :
    (Term.node op args).isFormula = true ↔
      op.takes args.length = true ∧ ∀ a ∈ args, a.isFormula = true := by
  simp [isFormula, h]

@[simp]
theorem isFormula_conj {args : List Term} :
    (Term.node .and args).isFormula = true ↔ ∀ a ∈ args, a.isFormula = true := by
  rw [isFormula_connective rfl]
  exact and_iff_right rfl

theorem isFormula_imp {s t : Term} :
    (imp s t).isFormula = true ↔ s.isFormula = true ∧ t.isFormula = true := by
  rw [imp, isFormula_connective rfl, forall_mem_pair]
  exact and_iff_right rfl

@[simp]
theorem isFormula_disj {args : List Term} :
    (Term.node .or args).isFormula = true ↔ ∀ a ∈ args, a.isFormula = true := by
  rw [isFormula_connective rfl]
  exact and_iff_right rfl

/-- Objects keep the argument counts. -/
theorem KeepsArities.of_isObject {t : Term} (h : t.isObject = true) : t.KeepsArities := by
  induction t using Term.induct with
  | call f args ih => exact keepsArities_call.2 fun a ha => ih a ha (isObject_call.1 h a ha)
  | node op args ih => simp [isObject] at h
  | quant q vars body ih => simp [isObject] at h
  | _ => simp [KeepsArities, keepsArity]

/-- Formulas keep the argument counts. -/
theorem KeepsArities.of_isFormula {t : Term} (h : t.isFormula = true) : t.KeepsArities := by
  induction t using Term.induct with
  | call f args ih =>
    exact keepsArities_call.2 fun a ha => .of_isObject (isFormula_call.1 h a ha)
  | node op args ih =>
    by_cases hop : op.isPredicate = true
    · obtain ⟨harity, hargs⟩ := (isFormula_predicate hop).1 h
      exact keepsArities_node.2 ⟨harity, fun a ha => .of_isObject (hargs a ha)⟩
    · obtain ⟨harity, hargs⟩ := (isFormula_connective (by simpa using hop)).1 h
      exact keepsArities_node.2 ⟨harity, fun a ha => ih a ha (hargs a ha)⟩
  | quant q vars body ih => exact keepsArities_quant.2 (ih (isFormula_quant.1 h))
  | _ => simp [KeepsArities, keepsArity]

/-! ### Quantifiers below biconditionals -/

/-- No quantifier stands in a side of a biconditional or of an exclusive or. -/
def OpenSides (t : Term) : Prop :=
  ∀ p ∈ t.parts, p.isOp .iff = true ∨ p.isOp .xor = true → ∀ a ∈ p.args, a.QuantifierFree

instance (t : Term) : Decidable t.OpenSides :=
  inferInstanceAs (Decidable (∀ p ∈ t.parts, _ → ∀ a ∈ p.args, a.QuantifierFree))

/-- The arguments of a formula with open sides have open sides. -/
theorem OpenSides.of_mem_args {a t : Term} (h : t.OpenSides) (ha : a ∈ t.args) : a.OpenSides :=
  fun p hp => h p (mem_parts_trans hp (mem_parts_of_mem_args ha))

theorem openSides_quant {q : Quantifier} {vars : List Var} {body : Term} :
    (Term.quant q vars body).OpenSides ↔ body.OpenSides := by
  simp only [OpenSides, parts_quant, List.forall_mem_cons]
  exact and_iff_right (by simp [isOp, op?])

end Term

end ClauseForm
