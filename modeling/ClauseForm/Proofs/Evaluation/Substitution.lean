import ClauseForm.Proofs.Evaluation.Constants
import ClauseForm.Proofs.Evaluation.Meaning

/-!
# Evaluating under a substitution

Evaluation puts in what is bound, and goes under a quantifier without the bindings of the
variables that it binds. So, whatever it folds, a formula is evaluated to one that says
what textbook replacement of its free occurrences makes of it
(`ClauseForm.Term.exists_evaluate_substFree`).

This is what the formula says of the values of the bindings
(`ClauseForm.Interpretation.assign`) if nothing is captured
(`ClauseForm.holds_evaluate_iff_substFree`), and in particular if no quantifier binds a
variable that is mentioned in a binding (`ClauseForm.holds_evaluate_iff_assign`).

But nothing is renamed, and so things can be captured. Where `Y` is bound to `X`,
`![X]: X = Y` becomes `![X]: X = X`, which is evaluated to `![X]: true`, although the
formula says that everything is what `X` is (`ClauseForm.not_holds_evaluate_iff_assign`).
-/

universe u

namespace ClauseForm

namespace Interpretation

/-- The valuation changed so that what a substitution binds has the value of its binding. -/
def assign {D : Type u} (I : Interpretation D) (σ : Substitution) (v : Var → D) (x : Var) : D :=
  match σ.get? (.var x) with
  | some u => I.denote v u
  | none => v x

theorem assign_eq {D : Type u} (I : Interpretation D) (σ : Substitution) (v : Var → D) :
    I.assign σ v = fun x => I.denote v (σ.reading x) := by
  funext x
  unfold assign
  split
  · rename_i u hbound
    rw [Substitution.reading_of_get? hbound]
  · rename_i hbound
    rw [Substitution.reading_of_get?_eq_none hbound, denote_var]

end Interpretation

namespace Term

open Interpretation Substitution

variable {t : Term} {σ : Substitution}

/-- A formula without quantifiers and operators is replaced in as it is evaluated. -/
theorem exists_evaluate_object (ho : t.isObject = true) (hf : t.isFormula = true)
    (hσ : σ.IntoObjects) :
    ∃ t', t.evaluate σ = .ok t' ∧ Restates.{u} (t.substFree σ.reading) t' := by
  refine ⟨_, evaluate_of_intoObjects hσ ho, ?_⟩
  rw [substFree_eq_subst (.of_isObject ho)]
  exact .refl (isFormula_subst hf fun x _ => hσ.isObject_reading x)

/-- **A formula is evaluated to one that says what textbook replacement makes of it**, captures
included. -/
theorem exists_evaluate_substFree (hf : t.isFormula = true) (hσ : σ.IntoObjects) :
    ∃ t', t.evaluate σ = .ok t' ∧ Restates.{u} (t.substFree σ.reading) t' := by
  induction t using Term.induct generalizing σ with
  | bool b => exact exists_evaluate_object rfl hf hσ
  | const f => exact exists_evaluate_object rfl hf hσ
  | call f args ih => exact exists_evaluate_object hf hf hσ
  | node op args ih =>
    rw [substFree_node]
    by_cases hop : op.isPredicate = true
    · obtain ⟨htakes, hobjects⟩ := (isFormula_predicate hop).1 hf
      -- the arguments are objects, in which all occurrences are free
      have hargs : evaluateAll args σ = .ok (args.map (substFree σ.reading)) :=
        evaluateAll_eq_map fun a ha => by
          rw [substFree_eq_subst (.of_isObject (hobjects a ha))]
          exact evaluate_of_intoObjects hσ (hobjects a ha)
      have hnode : (Term.node op (args.map (substFree σ.reading))).isFormula = true := by
        refine (isFormula_predicate hop).2 ⟨by rwa [List.length_map], List.forall_mem_map.2 ?_⟩
        intro a ha
        rw [substFree_eq_subst (.of_isObject (hobjects a ha))]
        exact isObject_subst (hobjects a ha) fun x _ => hσ.isObject_reading x
      obtain ⟨t', ht', hrestates⟩ := exists_fold_restates.{u} hnode
      exact ⟨t', (evaluate_node (hσ.get?_eq_none rfl) hargs).trans ht', hrestates⟩
    · have hop : op.isPredicate = false := by simpa using hop
      obtain ⟨htakes, hformulas⟩ := (isFormula_connective hop).1 hf
      obtain ⟨args', hargs, hall⟩ := exists_evaluateAll fun a ha => ih a ha (hformulas a ha) hσ
      have hrestates : Restates.{u} (.node op (args.map (substFree σ.reading))) (.node op args') :=
        .connective hop (by rwa [List.length_map]) (List.forall₂_map_left_iff.2 hall)
      obtain ⟨t', ht', hfold⟩ := exists_fold_restates.{u} hrestates.isFormula
      exact ⟨t', (evaluate_node (hσ.get?_eq_none rfl) hargs).trans ht', hrestates.trans hfold⟩
  | quant q vars body ih =>
    obtain ⟨body', hbody, hrestates⟩ := ih (isFormula_quant.1 hf) (hσ.foldl_remove vars)
    rw [reading_foldl_remove] at hrestates
    exact ⟨.quant q vars body', evaluate_quant (hσ.get?_eq_none rfl) hbody,
      hrestates.quant q vars⟩
  | _ => simp [isFormula] at hf

/-- Nothing is captured if no quantifier binds a variable that some binding mentions. -/
theorem captureFree_reading
    (h : ∀ x u, σ.get? (.var x) = some u → ∀ y ∈ u.vars, y ∉ t.boundVars) :
    t.captureFree σ.reading = true := by
  refine captureFree_of_disjoint fun x => ?_
  cases hbound : σ.get? (.var x) with
  | none => exact Or.inl (reading_of_get?_eq_none hbound)
  | some u =>
    refine Or.inr fun y hy => h x u hbound y ?_
    rw [reading_of_get? hbound] at hy
    exact mem_vars_of_mem_free hy

/-- Where nothing is captured, replacing says the same as revaluing. -/
theorem holds_substFree_reading {D : Type u} {I : Interpretation D} (hf : t.isFormula = true)
    (hc : t.captureFree σ.reading = true) (v : Var → D) :
    I.Holds (t.substFree σ.reading) v ↔ I.Holds t (I.assign σ v) := by
  rw [assign_eq]
  exact I.holds_substFree hf hc v

end Term

open Term Interpretation Substitution

/-! ### Values that no quantifier can capture -/

/-- **Evaluation is sound.** If no quantifier of a formula binds a variable that is mentioned in
what variables are bound to, the formula is evaluated to one that is true under a valuation exactly
if the formula is true under this valuation changed as the bindings say, in every standard
interpretation. -/
theorem holds_evaluate_iff_assign {t : Term} (hf : t.isFormula = true) {σ : Substitution}
    (hσ : σ.IntoObjects)
    (hdisjoint : ∀ x u, σ.get? (.var x) = some u → ∀ y ∈ u.vars, y ∉ t.boundVars) :
    ∃ t', t.evaluate σ = .ok t' ∧ t'.isFormula = true ∧
      ∀ {D : Type u} {I : Interpretation D}, I.Standard →
        ∀ v, I.Holds t' v ↔ I.Holds t (I.assign σ v) := by
  obtain ⟨t', ht', hrestates⟩ := exists_evaluate_substFree.{u} hf hσ
  refine ⟨t', ht', hrestates.isFormula, fun {D I} hI v => ?_⟩
  rw [hrestates.holds hI, holds_substFree_reading hf (captureFree_reading hdisjoint)]

/-- The formula `p(X) & ![X]: (X < Z | ~~q(X, Y))`. -/
def shadowingFormula : Term :=
  .conj [.call ⟨0, .declared⟩ [.var ⟨0⟩], .quant .all [⟨0⟩] (.disj
    [.node .less [.var ⟨0⟩, .var ⟨2⟩],
      .neg (.neg (.call ⟨1, .declared⟩ [.var ⟨0⟩, .var ⟨1⟩]))])]

/-- The substitution that binds `Z` to `X`, then `X` to `2`, `Y` to `f(W)`, and `Z` again, to
`2`. -/
def shadowingBindings : Substitution :=
  .ofList [(.var ⟨2⟩, .var ⟨0⟩), (.var ⟨0⟩, .integer 2),
    (.var ⟨1⟩, .call ⟨2, .declared⟩ [.var ⟨3⟩]), (.var ⟨2⟩, .integer 2)]

theorem intoObjects_shadowingBindings : shadowingBindings.IntoObjects :=
  (((intoObjects_empty.add rfl).add rfl).add rfl).add rfl

theorem holds_evaluate_iff_assign_shadowing :
    shadowingFormula.isFormula = true ∧ shadowingBindings.IntoObjects ∧
      (∀ x u, shadowingBindings.get? (.var x) = some u →
        ∀ y ∈ u.vars, y ∉ shadowingFormula.boundVars) ∧
      ∃ t', shadowingFormula.evaluate shadowingBindings = .ok t' ∧ t'.isFormula = true ∧
        ∀ {D : Type} {I : Interpretation D}, I.Standard → ∀ v,
          I.Holds t' v ↔ I.Holds shadowingFormula (I.assign shadowingBindings v) := by
  have hdisjoint : ∀ x u, shadowingBindings.get? (.var x) = some u →
      ∀ y ∈ u.vars, y ∉ shadowingFormula.boundVars := by
    intro x u hu
    by_cases hx : x = ⟨0⟩ ∨ x = ⟨1⟩ ∨ x = ⟨2⟩
    · obtain rfl | rfl | rfl := hx
      · obtain rfl : Term.integer 2 = u := Option.some.inj hu
        decide
      · obtain rfl : Term.call ⟨2, .declared⟩ [.var ⟨3⟩] = u := Option.some.inj hu
        decide
      · obtain rfl : Term.integer 2 = u := Option.some.inj hu
        decide
    · simp only [not_or] at hx
      simp [shadowingBindings, Bindings.ofList, Bindings.get?_add_of_ne, hx] at hu
  exact ⟨by decide, intoObjects_shadowingBindings, hdisjoint,
    holds_evaluate_iff_assign.{0} (by decide) intoObjects_shadowingBindings hdisjoint⟩

/-! ### Values that a quantifier may capture -/

/-- **What evaluation says of any bindings.** A formula is evaluated to one that is true, in every
standard interpretation and under every valuation, exactly if the formula is after its free
occurrences of bound variables have been replaced, without any renaming; and if this captures
nothing, exactly if the formula is true under the valuation changed as the bindings say. -/
theorem holds_evaluate_iff_substFree {t : Term} (hf : t.isFormula = true) {σ : Substitution}
    (hσ : σ.IntoObjects) :
    ∃ t', t.evaluate σ = .ok t' ∧ t'.isFormula = true ∧
      ∀ {D : Type u} {I : Interpretation D}, I.Standard → ∀ v,
        (I.Holds t' v ↔ I.Holds (t.substFree σ.reading) v) ∧
        (t.captureFree σ.reading = true → (I.Holds t' v ↔ I.Holds t (I.assign σ v))) := by
  obtain ⟨t', ht', hrestates⟩ := exists_evaluate_substFree.{u} hf hσ
  refine ⟨t', ht', hrestates.isFormula, fun {D I} hI v => ⟨hrestates.holds hI v, fun hc => ?_⟩⟩
  rw [hrestates.holds hI, holds_substFree_reading hf hc]

/-- The formula `Y = a & ![X]: ?[Y]: X != Y`. -/
def sheltered : Term :=
  .conj [.eq (.var ⟨1⟩) (.const ⟨0, .declared⟩),
    .quant .all [⟨0⟩] (.quant .exist [⟨1⟩] (.node .notEquals [.var ⟨0⟩, .var ⟨1⟩]))]

/-- The formula `![X]: X = Y`. -/
def capturing : Term :=
  .quant .all [⟨0⟩] (.eq (.var ⟨0⟩) (.var ⟨1⟩))

/-- The substitution that binds `Y` to `X`. -/
def boundToVariable : Substitution :=
  Bindings.empty.add (.var ⟨1⟩) (.var ⟨0⟩)

theorem intoObjects_boundToVariable : boundToVariable.IntoObjects :=
  intoObjects_empty.add rfl

/-- Binding `Y` to `X` captures nothing where `Y` is only free outside the scope of `X`. -/
theorem holds_evaluate_iff_substFree_sheltered :
    sheltered.isFormula = true ∧ boundToVariable.IntoObjects ∧
      sheltered.captureFree boundToVariable.reading = true ∧
      ∃ t', sheltered.evaluate boundToVariable = .ok t' ∧ t'.isFormula = true ∧
        ∀ {D : Type} {I : Interpretation D}, I.Standard → ∀ v,
          (I.Holds t' v ↔ I.Holds (sheltered.substFree boundToVariable.reading) v) ∧
          (I.Holds t' v ↔ I.Holds sheltered (I.assign boundToVariable v)) := by
  have hcapture : sheltered.captureFree boundToVariable.reading = true := by decide
  obtain ⟨t', ht', hf, hholds⟩ :=
    holds_evaluate_iff_substFree.{0} (t := sheltered) (by decide) intoObjects_boundToVariable
  exact ⟨by decide, intoObjects_boundToVariable, hcapture, t', ht', hf, fun hI v =>
    ⟨(hholds hI v).1, (hholds hI v).2 hcapture⟩⟩

/-- **Evaluation captures variables**: where a quantifier binds a variable that is mentioned in a
binding, the result may say something else than the formula does of the values of the bindings. -/
theorem not_holds_evaluate_iff_assign :
    ¬∀ (t : Term) (σ : Substitution), t.isFormula = true → σ.IntoObjects →
      (∃ x u y, σ.get? (.var x) = some u ∧ y ∈ u.vars ∧ y ∈ t.boundVars) →
      ∃ t', t.evaluate σ = .ok t' ∧ ∀ {D : Type} {I : Interpretation D}, I.Standard →
        ∀ v, I.Holds t' v ↔ I.Holds t (I.assign σ v) := by
  intro h
  obtain ⟨t', ht', hholds⟩ := h capturing boundToVariable (by decide) intoObjects_boundToVariable
    ⟨⟨1⟩, .var ⟨0⟩, ⟨0⟩, rfl, by decide, by decide⟩
  have heval : capturing.evaluate boundToVariable = .ok (.quant .all [⟨0⟩] (.bool true)) := by rfl
  obtain rfl : t' = .quant .all [⟨0⟩] (.bool true) := Except.ok.inj (ht'.symm.trans heval)
  -- among the terms, `X` is not everything that there is
  have hall : literal.Holds capturing (literal.assign boundToVariable .var) :=
    (hholds literal_standard .var).1 ((holds_all ..).2 fun _ _ => rfl)
  let w (x : Var) : Term := if x = ⟨0⟩ then .bool true else literal.assign boundToVariable .var x
  have heq : w ⟨0⟩ = w ⟨1⟩ :=
    (holds_equals ..).1 ((holds_all ..).1 hall w fun x hx => if_neg (by simpa using hx))
  exact absurd heq (by decide)

end ClauseForm
