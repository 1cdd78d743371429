import ClauseForm.Proofs.Unification.Quantified

/-!
# Applying a substitution once is enough

Applying an acyclic substitution follows the bindings to their ends. What is left of a
term are the unbound variables that its own variables lead to
(`ClauseForm.Substitution.Acyclic.mem_vars_subst_effect`); so there is nothing to do for
a second application. Nor does it matter whether a substitution is applied before one
that unification makes of it by adding bindings (`ClauseForm.applyTo?_idempotent`).

All of it rests on the effects satisfying the bindings: what satisfies them does not tell
a term from what applying the substitution makes of it
(`ClauseForm.Substitution.Acyclic.solves_iff`), and the effects of the substitution itself, and of
one that extends it, are cases of this.
-/

namespace ClauseForm

open Relation

namespace Substitution

variable {σ σ' : Substitution} {v x : Var}

/-- **A second application changes nothing.** -/
theorem Acyclic.subst_effect_subst_effect (h : σ.Acyclic) (t : Term) :
    (t.subst σ.effect).subst σ.effect = t.subst σ.effect :=
  h.solves_iff.1 (solves_effect h) t

/-- **No bound variable is left** when a substitution has been applied. -/
theorem Acyclic.get?_of_mem_vars (h : σ.Acyclic) {t : Term} (hv : v ∈ (t.subst σ.effect).vars) :
    σ.get? (.var v) = none :=
  h.effect_eq_var_iff.1 (Term.subst_eq_self_iff.1 (h.subst_effect_subst_effect t) v hv)

/-- What is left of a variable is made of variables that it leads to. -/
theorem Acyclic.reaches_of_mem_vars (h : σ.Acyclic) (hv : v ∈ (σ.effect x).vars) :
    ReflTransGen σ.Leads x v := by
  obtain ⟨r, hr, -⟩ := h.exists_ranks
  induction hn : r x using Nat.strongRecOn generalizing x with
  | _ n ih =>
    cases hu : σ.get? (.var x) with
    | none =>
      rw [effect_of_get?_eq_none hu, Term.vars_var, List.mem_singleton] at hv
      rw [hv]
    | some u =>
      rw [solves_effect h x u hu, Term.vars_subst, List.mem_flatMap] at hv
      obtain ⟨y, hy, hv⟩ := hv
      have hlead : σ.Leads x y := ⟨u, hu, hy⟩
      exact .head hlead (ih (r y) (hn ▸ hr.lt hlead) hv rfl)

/-- An unbound variable is left of every variable that leads to it. -/
theorem Acyclic.mem_vars_of_reaches (h : σ.Acyclic) (hv : σ.get? (.var v) = none)
    (hx : ReflTransGen σ.Leads x v) : v ∈ (σ.effect x).vars := by
  induction hx using ReflTransGen.head_induction_on with
  | refl => simp [effect_of_get?_eq_none hv]
  | head hlead _ ih =>
    obtain ⟨u, hu, hy⟩ := hlead
    rw [solves_effect h _ u hu, Term.vars_subst, List.mem_flatMap]
    exact ⟨_, hy, ih⟩

/-- **What is left of a term are the unbound variables that its variables lead to.** -/
theorem Acyclic.mem_vars_subst_effect (h : σ.Acyclic) {t : Term} :
    v ∈ (t.subst σ.effect).vars ↔
      σ.get? (.var v) = none ∧ ∃ x ∈ t.vars, ReflTransGen σ.Leads x v := by
  constructor
  · intro hv
    have hnone := h.get?_of_mem_vars hv
    rw [Term.vars_subst, List.mem_flatMap] at hv
    obtain ⟨x, hx, hv⟩ := hv
    exact ⟨hnone, x, hx, h.reaches_of_mem_vars hv⟩
  · rintro ⟨hnone, x, hx, hreach⟩
    rw [Term.vars_subst, List.mem_flatMap]
    exact ⟨x, hx, h.mem_vars_of_reaches hnone hreach⟩

/-- **A substitution makes no difference ahead of one that extends it.** -/
theorem ExtendsTo.subst_effect_subst_effect (hext : σ.ExtendsTo σ') (h : σ.Acyclic)
    (h' : σ'.Acyclic) (t : Term) : (t.subst σ.effect).subst σ'.effect = t.subst σ'.effect :=
  h.solves_iff.1 (hext.solves (solves_effect h')) t

end Substitution

open Term Substitution

/-- **Applying an acyclic substitution follows the bindings to their ends.** The variables of the
result are the unbound ones that those of the term lead to; applying the substitution once more
changes nothing; and neither does applying it ahead of one that unification has made of it. -/
theorem applyTo?_idempotent {σ : Substitution} (h : σ.Acyclic) (t : Term) :
    ∃ u, σ.applyTo? t = some u ∧
      (∀ v, v ∈ u.vars ↔ σ.get? (.var v) = none ∧ ∃ x ∈ t.vars, ReflTransGen σ.Leads x v) ∧
      σ.applyTo? u = some u ∧
      ∀ (t₁ t₂ : Term) (σ' : Substitution), t₁.unify t₂ σ = .ok σ' →
        ∃ w, σ'.applyTo? u = some w ∧ σ'.applyTo? t = some w := by
  refine ⟨t.subst σ.effect, h.applyTo?_eq t, fun v => h.mem_vars_subst_effect, ?_, ?_⟩
  · rw [h.applyTo?_eq, h.subst_effect_subst_effect]
  · intro t₁ t₂ σ' hrun
    have hunified := unify_unified h hrun
    have h' := hunified.confined.acyclic
    refine ⟨t.subst σ'.effect, ?_, h'.applyTo?_eq t⟩
    rw [h'.applyTo?_eq, hunified.extendsTo.subst_effect_subst_effect h h']

/-- With `Y` bound to `f(Z)`, the term `g(Y, f(a))` becomes `g(f(Z), f(a))`. Unifying `g(X, X)` with
it binds `Z` to `a`, and then the term and what became of it come to the same. -/
theorem applyTo?_idempotent_chain :
    chainStart.Acyclic ∧ chainLeft.unify chainRight chainStart = .ok chainEnd ∧
      ∃ u, chainStart.applyTo? chainRight = some u ∧
        (∀ v, v ∈ u.vars ↔ chainStart.get? (.var v) = none ∧
          ∃ x ∈ chainRight.vars, ReflTransGen chainStart.Leads x v) ∧
        chainStart.applyTo? u = some u ∧
        ∃ w, chainEnd.applyTo? u = some w ∧ chainEnd.applyTo? chainRight = some w := by
  have hrun : chainLeft.unify chainRight chainStart = .ok chainEnd := by rfl
  obtain ⟨u, hu, hvars, hagain, hextended⟩ := applyTo?_idempotent acyclic_chainStart chainRight
  exact ⟨acyclic_chainStart, hrun, u, hu, hvars, hagain, hextended _ _ _ hrun⟩

end ClauseForm
