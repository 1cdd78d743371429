import ClauseForm.Proofs.Negation.Shape
import ClauseForm.Proofs.Semantics.Coincidence
import ClauseForm.Proofs.Syntax.Replacement

/-!
# Replacing variables and changing their values

A formula in which variables are replaced by objects says what it says where the
variables have the values of these objects
(`ClauseForm.Interpretation.holds_subst`), as long as no quantifier is there to
interfere. Replacing variables by objects keeps a normal form without quantifiers
one (`ClauseForm.Term.Normal.subst`).
-/

universe u

namespace ClauseForm

namespace Interpretation

variable {D : Type u} (I : Interpretation D) (τ : Var → Term) (v : Var → D)

/-- Replacing a variable by an object and giving it the value of the object is the same. -/
theorem denote_subst {t : Term} (h : t.isObject = true) :
    I.denote v (t.subst τ) = I.denote (fun x => I.denote v (τ x)) t := by
  induction t using Term.induct with
  | call f args ih =>
    rw [Term.subst_call, denote_call, denote_call, List.map_map]
    exact congrArg _ (List.map_congr_left fun a ha => ih a ha (Term.isObject_call.1 h a ha))
  | node op args ih => simp [Term.isObject] at h
  | quant q vars body ih => simp [Term.isObject] at h
  | _ => simp [Term.subst, denote]

theorem map_denote_subst {args : List Term} (h : ∀ a ∈ args, a.isObject = true) :
    (args.map (Term.subst τ)).map (I.denote v) =
      args.map (I.denote fun x => I.denote v (τ x)) := by
  rw [List.map_map]
  exact List.map_congr_left fun a ha => I.denote_subst τ v (h a ha)

/-- **A formula without quantifiers under a replacement** is true where the formula is true of what
the replacing objects stand for. -/
theorem holds_subst {t : Term} (hf : t.isFormula = true) (hq : t.QuantifierFree) :
    I.Holds (t.subst τ) v ↔ I.Holds t fun x => I.denote v (τ x) := by
  induction t using Term.induct with
  | var x => simp [Term.isFormula] at hf
  | const f => simp
  | call f args ih =>
    rw [Term.subst_call, holds_call, holds_call, I.map_denote_subst τ v (Term.isFormula_call.1 hf)]
  | node op args ih =>
    rw [Term.subst_node]
    by_cases hop : op.isPredicate = true
    · rw [holds_predicate I _ hop, holds_predicate I _ hop,
        I.map_denote_subst τ v ((Term.isFormula_predicate hop).1 hf).2]
    · have hop : op.isPredicate = false := by simpa using hop
      have hargs := ((Term.isFormula_connective hop).1 hf).2
      refine holds_connective_congr hop (List.forall₂_map_left_iff.2 (List.forall₂_same.2 ?_))
      exact fun a ha => ih a ha (hargs a ha) (Term.quantifierFree_node.1 hq a ha)
  | quant q vars body ih => exact absurd hq Term.not_quantifierFree_quant
  | _ => simp [Term.subst, Holds]

end Interpretation

namespace Term

variable {τ : Var → Term} {t : Term}

/-- An atom that is a formula is no variable, and stays an atom. -/
theorem isAtom_subst (ha : t.isAtom = true) (hf : t.isFormula = true) :
    (t.subst τ).isAtom = true := by
  cases t with
  | var x => simp [isFormula] at hf
  | node op args => exact subst_node τ op args ▸ ha
  | quant q vars body => simp [isAtom] at ha
  | call f args => rw [subst_call]; rfl
  | _ => rfl

/-- A formula in negation normal form stays one. -/
theorem Normal.subst (h : t.Normal) (hf : t.isFormula = true) : (t.subst τ).Normal := by
  induction h with
  | atom ha => exact .atom (isAtom_subst ha hf)
  | @negated a ha =>
    have hf' := ((isFormula_connective rfl).1 hf).2 a (by simp)
    rw [subst_node]
    exact .negated (isAtom_subst ha hf')
  | conj _ ih =>
    rw [subst_node]
    exact .conj (List.forall_mem_map.2 fun a ha => ih a ha (isFormula_conj.1 hf a ha))
  | disj _ ih =>
    rw [subst_node]
    exact .disj (List.forall_mem_map.2 fun a ha => ih a ha (isFormula_disj.1 hf a ha))
  | @iff a b _ _ iha ihb =>
    have hargs := ((isFormula_connective rfl).1 hf).2
    rw [subst_node]
    exact .iff (iha (hargs a (by simp))) (ihb (hargs b (by simp)))
  | quant _ ih =>
    rw [subst_quant]
    exact .quant (ih (isFormula_quant.1 hf))

/-- Replacing variables by objects brings no quantifiers. -/
theorem QuantifierFree.subst (h : t.QuantifierFree) (hτ : ∀ x ∈ t.vars, (τ x).isObject = true) :
    (t.subst τ).QuantifierFree := by
  induction t using Term.induct with
  | var x => simpa using QuantifierFree.of_isObject (hτ x (by simp))
  | call f args ih | node op args ih =>
    simp only [quantifierFree_call, quantifierFree_node, vars_call, vars_node,
      List.mem_flatMap, subst_call, subst_node, List.forall_mem_map] at h hτ ⊢
    exact fun a ha => ih a ha (h a ha) fun x hx => hτ x ⟨a, ha, hx⟩
  | quant q vars body ih => exact absurd h not_quantifierFree_quant
  | _ => exact h

end Term

end ClauseForm
