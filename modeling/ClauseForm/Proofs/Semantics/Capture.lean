import ClauseForm.Proofs.Semantics.Replacement

/-!
# Replacing free occurrences

Textbook substitution replaces the free occurrences of variables and leaves alone what
a quantifier binds in its scope (`ClauseForm.Term.substFree`). It means what one expects
as long as no quantifier *captures* anything: no free occurrence of a variable stands
in the scope of a quantifier that binds a variable of the term put in its place
(`ClauseForm.Term.captureFree`). Then a formula after the replacement is true where the
formula before it is true of what the terms put in stand for
(`ClauseForm.Interpretation.holds_substFree`).
-/

universe u

namespace ClauseForm

namespace Term

/-! ### Replacing and capturing -/

/-- The replacement `τ`, but for certain variables, which stay. -/
def sparing (vars : List Var) (τ : Var → Term) (x : Var) : Term :=
  if x ∈ vars then .var x else τ x

mutual

/-- The term with every free occurrence of a variable replaced by the term that `τ` gives it. -/
def substFree (τ : Var → Term) : Term → Term
  | .var x => τ x
  | .call f args => .call f (substFreeAll τ args)
  | .node op args => .node op (substFreeAll τ args)
  | .quant q vars body => .quant q vars (substFree (sparing vars τ) body)
  | t => t

/-- Several terms with every free occurrence of a variable replaced by what `τ` gives it. -/
def substFreeAll (τ : Var → Term) : List Term → List Term
  | [] => []
  | t :: ts => substFree τ t :: substFreeAll τ ts

end

mutual

/-- Whether no free occurrence of a variable stands in the scope of a quantifier that binds a free
variable of the term that `τ` gives it. -/
def captureFree (τ : Var → Term) : Term → Bool
  | .call _ args => captureFreeAll τ args
  | .node _ args => captureFreeAll τ args
  | .quant _ vars body =>
    (body.free.all fun x => x ∈ vars || (τ x).free.all (· ∉ vars)) &&
      captureFree (sparing vars τ) body
  | _ => true

/-- Whether nothing is captured in any of several terms. -/
def captureFreeAll (τ : Var → Term) : List Term → Bool
  | [] => true
  | t :: ts => captureFree τ t && captureFreeAll τ ts

end

theorem substFreeAll_eq_map (τ : Var → Term) (ts : List Term) :
    substFreeAll τ ts = ts.map (substFree τ) := by
  induction ts with
  | nil => rfl
  | cons t ts ih => exact congrArg (substFree τ t :: ·) ih

theorem captureFreeAll_eq_true {τ : Var → Term} {ts : List Term} :
    captureFreeAll τ ts = true ↔ ∀ t ∈ ts, t.captureFree τ = true := by
  induction ts with
  | nil => simp [captureFreeAll]
  | cons t ts ih => simp [captureFreeAll, ih]

section Equations

variable (τ : Var → Term)

@[simp]
theorem substFree_call (f : FunSym) (args : List Term) :
    (Term.call f args).substFree τ = .call f (args.map (substFree τ)) :=
  congrArg (Term.call f) (substFreeAll_eq_map τ args)

@[simp]
theorem substFree_node (op : Op) (args : List Term) :
    (Term.node op args).substFree τ = .node op (args.map (substFree τ)) :=
  congrArg (Term.node op) (substFreeAll_eq_map τ args)

@[simp]
theorem substFree_quant (q : Quantifier) (vars : List Var) (body : Term) :
    (Term.quant q vars body).substFree τ = .quant q vars (body.substFree (sparing vars τ)) := rfl

@[simp]
theorem captureFree_call (f : FunSym) (args : List Term) :
    (Term.call f args).captureFree τ = true ↔ ∀ a ∈ args, a.captureFree τ = true :=
  captureFreeAll_eq_true

@[simp]
theorem captureFree_node (op : Op) (args : List Term) :
    (Term.node op args).captureFree τ = true ↔ ∀ a ∈ args, a.captureFree τ = true :=
  captureFreeAll_eq_true

/-- A quantifier captures nothing if it binds no variable of what replaces the variables that are
free in its body and not its own, and if nothing is captured in its body. -/
theorem captureFree_quant (q : Quantifier) (vars : List Var) (body : Term) :
    (Term.quant q vars body).captureFree τ = true ↔
      (∀ x ∈ body.free, x ∉ vars → ∀ y ∈ (τ x).free, y ∉ vars) ∧
        body.captureFree (sparing vars τ) = true := by
  simp [captureFree, or_iff_not_imp_left]

theorem sparing_of_mem {vars : List Var} {x : Var} (h : x ∈ vars) : sparing vars τ x = .var x :=
  if_pos h

theorem sparing_of_not_mem {vars : List Var} {x : Var} (h : x ∉ vars) : sparing vars τ x = τ x :=
  if_neg h

end Equations

variable {τ : Var → Term} {t : Term}

/-- Without quantifiers, all occurrences are free. -/
theorem substFree_eq_subst (h : t.QuantifierFree) : t.substFree τ = t.subst τ := by
  induction t using Term.induct with
  | call f args ih | node op args ih =>
    simp only [quantifierFree_call, quantifierFree_node] at h
    simp only [substFree_call, substFree_node, subst_call, subst_node]
    exact congrArg _ (List.map_congr_left fun a ha => ih a ha (h a ha))
  | quant q vars body ih => exact absurd h not_quantifierFree_quant
  | _ => rfl

/-- Nothing is captured if no quantifier binds a variable of any of the terms put in. -/
theorem captureFree_of_disjoint (h : ∀ x, τ x = .var x ∨ ∀ y ∈ (τ x).free, y ∉ t.boundVars) :
    t.captureFree τ = true := by
  induction t using Term.induct generalizing τ with
  | call f args ih | node op args ih =>
    simp only [captureFree_call, captureFree_node]
    refine fun a ha => ih a ha fun x => (h x).imp_right fun hx y hy hbound => hx y hy ?_
    simp only [boundVars_call, boundVars_node, List.mem_flatMap]
    exact ⟨a, ha, hbound⟩
  | quant q vars body ih =>
    simp only [boundVars_quant, List.mem_append, not_or] at h
    refine (captureFree_quant τ q vars body).2 ⟨fun x _ hxv y hy => ?_, ih fun x => ?_⟩
    · rcases h x with hx | hx
      · rw [hx] at hy
        exact List.mem_singleton.1 hy ▸ hxv
      · exact (hx y hy).1
    · by_cases hxv : x ∈ vars
      · exact Or.inl (sparing_of_mem τ hxv)
      · rw [sparing_of_not_mem τ hxv]
        exact (h x).imp_right fun hx y hy => (hx y hy).2
  | _ => rfl

end Term

/-! ### What the formula says afterwards -/

namespace Interpretation

open Term

variable {D : Type u} (I : Interpretation D)

/-- **A formula after a replacement that captures nothing** is true where the formula is true of
what the terms put in stand for. -/
theorem holds_substFree {τ : Var → Term} {t : Term} (hf : t.isFormula = true)
    (hc : t.captureFree τ = true) (v : Var → D) :
    I.Holds (t.substFree τ) v ↔ I.Holds t fun x => I.denote v (τ x) := by
  have hatom : ∀ {t : Term} {τ : Var → Term} (v : Var → D), t.isFormula = true →
      t.QuantifierFree → (I.Holds (t.substFree τ) v ↔ I.Holds t fun x => I.denote v (τ x)) :=
    fun v hf hq => substFree_eq_subst hq ▸ I.holds_subst _ v hf hq
  induction t using Term.induct generalizing τ v with
  | bool b => rfl
  | const f => rfl
  | call f args ih =>
    exact hatom v hf (quantifierFree_call.2 fun a ha => .of_isObject (isFormula_call.1 hf a ha))
  | node op args ih =>
    by_cases hop : op.isPredicate = true
    · exact hatom v hf (quantifierFree_node.2 fun a ha =>
        .of_isObject (((isFormula_predicate hop).1 hf).2 a ha))
    · have hop : op.isPredicate = false := by simpa using hop
      have hargs := ((isFormula_connective hop).1 hf).2
      rw [captureFree_node] at hc
      rw [substFree_node]
      refine holds_connective_congr hop (List.forall₂_map_left_iff.2 (List.forall₂_same.2 ?_))
      exact fun a ha => ih a ha (hargs a ha) (hc a ha) v
  | quant q vars body ih =>
    obtain ⟨hcapture, hc⟩ := (captureFree_quant τ q vars body).1 hc
    rw [substFree_quant]
    refine holds_quant_iff q fun u w hu hw hsame => (ih (isFormula_quant.1 hf) hc w).trans ?_
    -- `w` values what is put in as the valuation of the whole formula does, since nothing in it
    -- is bound here
    refine holds_congr fun x hx => ?_
    by_cases hxv : x ∈ vars
    · rw [sparing_of_mem τ hxv, denote_var, hsame x hxv]
    · rw [sparing_of_not_mem τ hxv, hu x hxv]
      exact denote_congr fun y hy => hw y (hcapture x hx hxv y hy)
  | _ => simp [isFormula] at hf

end Interpretation

end ClauseForm
