import ClauseForm.Proofs.Syntax.Free
import ClauseForm.Proofs.Syntax.Formula

/-!
# Replacing variables

A simultaneous replacement gives every variable a term, and replaces all
occurrences of variables in a term by theirs (`ClauseForm.Term.subst`), those that a
quantifier binds included; the lists of bound variables stay as they are. What
the result mentions is told by what the term and the terms of its variables mention
(`ClauseForm.Term.vars_subst`, `ClauseForm.Term.mem_funs_subst`).
-/

namespace ClauseForm

namespace Term

mutual

/-- The term with every occurrence of a variable replaced by the term that `τ` gives it. -/
def subst (τ : Var → Term) : Term → Term
  | .var v => τ v
  | .call f args => .call f (substAll τ args)
  | .node op args => .node op (substAll τ args)
  | .quant q vars body => .quant q vars (subst τ body)
  | t => t

/-- Several terms with every occurrence of a variable replaced by the term that `τ` gives it. -/
def substAll (τ : Var → Term) : List Term → List Term
  | [] => []
  | t :: ts => subst τ t :: substAll τ ts

end

theorem substAll_eq_map (τ : Var → Term) (ts : List Term) : substAll τ ts = ts.map (subst τ) := by
  induction ts with
  | nil => rfl
  | cons t ts ih => exact congrArg (subst τ t :: ·) ih

section Equations

variable (τ : Var → Term)

@[simp]
theorem subst_var (v : Var) : (Term.var v).subst τ = τ v := rfl

@[simp]
theorem subst_call (f : FunSym) (args : List Term) :
    (Term.call f args).subst τ = .call f (args.map (subst τ)) :=
  congrArg (Term.call f) (substAll_eq_map τ args)

@[simp]
theorem subst_node (op : Op) (args : List Term) :
    (Term.node op args).subst τ = .node op (args.map (subst τ)) :=
  congrArg (Term.node op) (substAll_eq_map τ args)

@[simp]
theorem subst_quant (q : Quantifier) (vars : List Var) (body : Term) :
    (Term.quant q vars body).subst τ = .quant q vars (body.subst τ) := rfl

@[simp]
theorem subst_bool (b : Bool) : (Term.bool b).subst τ = .bool b := rfl

@[simp]
theorem subst_object (name : String) : (Term.object name).subst τ = .object name := rfl

@[simp]
theorem subst_integer (n : Int) : (Term.integer n).subst τ = .integer n := rfl

@[simp]
theorem subst_rational (x : Rat) : (Term.rational x).subst τ = .rational x := rfl

@[simp]
theorem subst_real (x : Rat) : (Term.real x).subst τ = .real x := rfl

@[simp]
theorem subst_const (f : FunSym) : (Term.const f).subst τ = .const f := rfl

end Equations

variable {τ υ : Var → Term} {t : Term}

/-! ### What a replacement depends on -/

/-- Replacements come to the same exactly if they agree on the variables that occur. -/
theorem subst_eq_iff : t.subst τ = t.subst υ ↔ ∀ x ∈ t.vars, τ x = υ x := by
  induction t using Term.induct with
  | var x => simp
  | call f args ih | node op args ih =>
    simp only [vars_call, vars_node, subst_call, subst_node, call.injEq, node.injEq, true_and,
      List.map_inj_left, List.forall_mem_flatMap]
    exact forall₂_congr ih
  | quant q vars body ih => simpa using ih
  | _ => simp [vars, var?]

/-- Only the variables that occur matter. -/
theorem subst_congr (h : ∀ x ∈ t.vars, τ x = υ x) : t.subst τ = t.subst υ :=
  subst_eq_iff.2 h

/-- Replacing every variable by itself changes nothing. -/
@[simp]
theorem subst_id (t : Term) : t.subst .var = t := by
  induction t using Term.induct with
  | call f args ih | node op args ih =>
    simp only [subst_call, subst_node, List.map_congr_left ih, List.map_id']
  | quant q vars body ih => rw [subst_quant, ih]
  | _ => simp

/-- A term stays as it is exactly if every variable in it is replaced by itself. -/
theorem subst_eq_self_iff : t.subst τ = t ↔ ∀ x ∈ t.vars, τ x = .var x := by
  rw [← subst_eq_iff, subst_id]

/-- One replacement after the other is one replacement. -/
theorem subst_subst (t : Term) : (t.subst τ).subst υ = t.subst fun x => (τ x).subst υ := by
  induction t using Term.induct with
  | call f args ih | node op args ih =>
    simp only [subst_call, subst_node, List.map_map]
    exact congrArg _ (List.map_congr_left ih)
  | quant q vars body ih => rw [subst_quant, subst_quant, subst_quant, ih]
  | _ => simp

/-! ### What the result mentions -/

/-- The variables of the result are those of the terms put in. -/
theorem vars_subst (t : Term) : (t.subst τ).vars = t.vars.flatMap fun x => (τ x).vars := by
  induction t using Term.induct with
  | call f args ih | node op args ih =>
    simp only [subst_call, subst_node, vars_call, vars_node, List.flatMap_map, List.flatMap_assoc]
    exact congrArg List.flatten (List.map_congr_left ih)
  | quant q vars body ih => rw [subst_quant, vars_quant, vars_quant, ih]
  | var x => simp
  | _ => rfl

/-- The function symbols of the result are those of the term and of the terms put in. -/
theorem mem_funs_subst {f : FunSym} :
    f ∈ (t.subst τ).funs ↔ f ∈ t.funs ∨ ∃ x ∈ t.vars, f ∈ (τ x).funs := by
  induction t using Term.induct with
  | call g args ih | node op args ih =>
    simp only [subst_call, subst_node, funs_call, funs_node, vars_call, vars_node, List.mem_cons,
      List.mem_flatMap, List.mem_map, or_assoc]
    first | refine or_congr_right ?_ | skip
    constructor
    · rintro ⟨_, ⟨a, ha, rfl⟩, hf⟩
      rcases (ih a ha).1 hf with hf | ⟨x, hx, hf⟩
      · exact Or.inl ⟨a, ha, hf⟩
      · exact Or.inr ⟨x, ⟨a, ha, hx⟩, hf⟩
    · rintro (⟨a, ha, hf⟩ | ⟨x, ⟨a, ha, hx⟩, hf⟩)
      · exact ⟨_, ⟨a, ha, rfl⟩, (ih a ha).2 (Or.inl hf)⟩
      · exact ⟨_, ⟨a, ha, rfl⟩, (ih a ha).2 (Or.inr ⟨x, hx, hf⟩)⟩
  | quant q vars body ih => rw [subst_quant, funs_quant, funs_quant, vars_quant, ih]
  | var x => simp [funs, head?]
  | const g => simp [vars, var?]
  | _ => simp [subst, funs, vars, head?, var?]

/-! ### Objects and formulas -/

theorem isObject_subst (h : t.isObject = true) (hτ : ∀ x ∈ t.vars, (τ x).isObject = true) :
    (t.subst τ).isObject = true := by
  induction t using Term.induct with
  | var x => simpa using hτ
  | call f args ih =>
    rw [subst_call, isObject_call, List.forall_mem_map]
    rw [isObject_call] at h
    simp only [vars_call, List.mem_flatMap] at hτ
    exact fun a ha => ih a ha (h a ha) fun x hx => hτ x ⟨a, ha, hx⟩
  | node op args ih => simp [isObject] at h
  | quant q vars body ih => simp [isObject] at h
  | _ => rfl

/-- Replacing the variables of a formula by objects gives a formula. -/
theorem isFormula_subst (h : t.isFormula = true) (hτ : ∀ x ∈ t.vars, (τ x).isObject = true) :
    (t.subst τ).isFormula = true := by
  induction t using Term.induct with
  | var x => simp [isFormula] at h
  | call f args ih =>
    rw [subst_call, isFormula_call, List.forall_mem_map]
    rw [isFormula_call] at h
    simp only [vars_call, List.mem_flatMap] at hτ
    exact fun a ha => isObject_subst (h a ha) fun x hx => hτ x ⟨a, ha, hx⟩
  | node op args ih =>
    simp only [vars_node, List.mem_flatMap] at hτ
    rw [subst_node]
    by_cases hop : op.isPredicate = true
    · rw [isFormula_predicate hop] at h ⊢
      rw [List.length_map, List.forall_mem_map]
      exact ⟨h.1, fun a ha => isObject_subst (h.2 a ha) fun x hx => hτ x ⟨a, ha, hx⟩⟩
    · rw [isFormula_connective (by simpa using hop)] at h ⊢
      rw [List.length_map, List.forall_mem_map]
      exact ⟨h.1, fun a ha => ih a ha (h.2 a ha) fun x hx => hτ x ⟨a, ha, hx⟩⟩
  | quant q vars body ih =>
    rw [subst_quant, isFormula_quant]
    exact ih (isFormula_quant.1 h) (by simpa using hτ)
  | _ => exact h

end Term

end ClauseForm
