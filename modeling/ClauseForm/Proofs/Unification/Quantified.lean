import ClauseForm.Proofs.Unification.Completeness

/-!
# Variables that are bound by quantifiers

Applying a substitution and unifying treat the variables that a quantifier binds like all others,
inside its scope as well as outside. So a term without free variables is not out of their reach:
`![X]: p(X)` becomes `![X]: p(a)` where `X` is bound to `a`, and the two unify
(`ClauseForm.not_closed_inert`).

How far they do reach is stated exactly (`ClauseForm.closed_applyTo?_unify`). Such a term stays as it
is if no variable is bound by the substitution that one of its quantifiers binds; and two of them
unify if they can be made equal by replacing such variables, without anything being bound only if
they are equal to begin with.
-/

namespace ClauseForm

namespace Substitution

variable {σ : Substitution} {t : Term}

/-- **A term stays as it is** exactly if none of the variables that occur in it is bound. -/
theorem Acyclic.applyTo?_eq_self_iff (h : σ.Acyclic) :
    σ.applyTo? t = some t ↔ ∀ v ∈ t.vars, σ.get? (.var v) = none := by
  rw [h.applyTo?_eq, Option.some.injEq, Term.subst_eq_self_iff]
  simp only [h.effect_eq_var_iff]

end Substitution

namespace Term

open Substitution

variable {σ σ' : Substitution} {s t : Term}

/-- A term unifies with itself, and nothing is bound for it. -/
theorem unify_self (h : σ.Acyclic) (s : Term) : s.unify s σ = .ok σ := by
  obtain ⟨u, hu, -⟩ := h.exists_resolve? s
  have hpos : 0 < max shallowDepth (unifyDepth s s σ) :=
    Nat.lt_of_lt_of_le (by decide) (Nat.le_max_left ..)
  obtain ⟨n, hn⟩ := Nat.exists_eq_succ_of_ne_zero (Nat.ne_of_gt hpos)
  rw [unify_eq, hn, unifyWithin, hu]
  exact if_pos rfl

/-- Where nothing is bound, only variables of the two terms get bound. -/
theorem mem_vars_of_unify (hrun : s.unify t .empty = .ok σ) {v : Var} {u : Term}
    (hv : σ.get? (.var v) = some u) : v ∈ s.vars ∨ v ∈ t.vars := by
  have hmem : ∀ {t : Term}, .var v ∈ t.parts → v ∈ t.vars := fun hpart =>
    List.mem_filterMap.2 ⟨_, hpart, rfl⟩
  rcases (unify_unified acyclic_empty hrun).keys v with hstock | hsame
  · rcases mem_stock.1 hstock with hs | ht | ⟨_, hnone, -⟩
    · exact Or.inl (hmem hs)
    · exact Or.inr (hmem ht)
    · simp [Bindings.values] at hnone
  · rw [hv, Bindings.get?_empty] at hsame
    cases hsame

/-- What becomes of the variables in a substitution that is found makes the terms equal. -/
theorem subst_effect_eq_of_unify
    (hfuns : ∀ f ∈ s.funs ++ t.funs, ∀ g ∈ s.funs ++ t.funs, f.id = g.id → f = g)
    (hrun : s.unify t .empty = .ok σ) : s.subst σ.effect = t.subst σ.effect := by
  have hunified := unify_unified acyclic_empty hrun
  have huniform : Uniform (· ∈ stock s t .empty) :=
    uniform_stock (by simpa [Bindings.values] using hfuns)
  have heq := hunified.map_eq huniform (solves_effect hunified.confined.acyclic)
  simpa using heq

/-- Two terms unify exactly if some replacement makes them equal. -/
theorem exists_unify_iff
    (hfuns : ∀ f ∈ s.funs ++ t.funs, ∀ g ∈ s.funs ++ t.funs, f.id = g.id → f = g) :
    (∃ σ, s.unify t .empty = .ok σ) ↔ ∃ τ : Var → Term, s.subst τ = t.subst τ := by
  constructor
  · rintro ⟨σ, hrun⟩
    exact ⟨_, subst_effect_eq_of_unify hfuns hrun⟩
  · rintro ⟨τ, heq⟩
    have hsolves : Solves τ .empty := fun v u hv => by cases hv
    obtain ⟨σ, hrun, -⟩ := exists_unify acyclic_empty hsolves heq
    exact ⟨σ, hrun⟩

/-- Nothing is bound exactly if the terms are equal to begin with. -/
theorem eq_iff_of_unify
    (hfuns : ∀ f ∈ s.funs ++ t.funs, ∀ g ∈ s.funs ++ t.funs, f.id = g.id → f = g)
    (hrun : s.unify t .empty = .ok σ) : s = t ↔ ∀ v, σ.get? (.var v) = none := by
  constructor
  · rintro rfl v
    obtain rfl : Bindings.empty = σ := Except.ok.inj ((unify_self acyclic_empty s).symm.trans hrun)
    rfl
  · intro hnone
    have heq := subst_effect_eq_of_unify hfuns hrun
    have hid : σ.effect = .var := funext fun v => effect_of_get?_eq_none (hnone v)
    simpa [hid] using heq

/-- What makes two terms equal may as well leave all variables alone that occur in neither. -/
theorem exists_unifier_within {xs : List Var} (hs : ∀ v ∈ s.vars, v ∈ xs)
    (ht : ∀ v ∈ t.vars, v ∈ xs) {τ : Var → Term} (heq : s.subst τ = t.subst τ) :
    ∃ υ : Var → Term, (∀ v, v ∉ xs → υ v = .var v) ∧ s.subst υ = t.subst υ := by
  let υ (v : Var) : Term := if v ∈ xs then τ v else .var v
  have hsame : ∀ {t : Term}, (∀ v ∈ t.vars, v ∈ xs) → t.subst υ = t.subst τ := fun h =>
    subst_congr fun v hv => if_pos (h v hv)
  exact ⟨υ, fun v hv => if_neg hv, by rw [hsame hs, hsame ht, heq]⟩

end Term

open Term Substitution

/-- **What becomes of terms without free variables.**

* An acyclic substitution leaves such a term as it is exactly if it binds no variable that occurs in
  the term, where some quantifier binds it.
* Two such terms, in which no two function symbols share a number, unify exactly if they can be made
  equal by replacing variables that their quantifiers bind. Only such variables get bound; and none
  do exactly if the terms are equal. -/
theorem closed_applyTo?_unify {t : Term} (ht : t.freeVars = []) :
    (∀ {σ : Substitution}, σ.Acyclic →
      (σ.applyTo? t = some t ↔ ∀ v ∈ t.boundVars, v ∈ t.vars → σ.get? (.var v) = none)) ∧
    ∀ {s : Term}, s.freeVars = [] →
      (∀ f ∈ s.funs ++ t.funs, ∀ g ∈ s.funs ++ t.funs, f.id = g.id → f = g) →
      ((∃ σ, s.unify t .empty = .ok σ) ↔ ∃ τ : Var → Term,
        (∀ v, v ∉ s.boundVars ++ t.boundVars → τ v = .var v) ∧ s.subst τ = t.subst τ) ∧
      ∀ σ, s.unify t .empty = .ok σ →
        (∀ v u, σ.get? (.var v) = some u → v ∈ s.boundVars ++ t.boundVars) ∧
        (s = t ↔ ∀ v, σ.get? (.var v) = none) := by
  refine ⟨fun {σ} hσ => ?_, fun {s} hs hfuns => ?_⟩
  · rw [hσ.applyTo?_eq_self_iff]
    exact ⟨fun h v _ hv => h v hv, fun h v hv => h v (mem_boundVars_of_closed ht hv) hv⟩
  have hsb : ∀ v ∈ s.vars, v ∈ s.boundVars ++ t.boundVars := fun v hv =>
    List.mem_append_left _ (mem_boundVars_of_closed hs hv)
  have htb : ∀ v ∈ t.vars, v ∈ s.boundVars ++ t.boundVars := fun v hv =>
    List.mem_append_right _ (mem_boundVars_of_closed ht hv)
  refine ⟨?_, fun σ hrun => ⟨fun v u hv => ?_, eq_iff_of_unify hfuns hrun⟩⟩
  · rw [exists_unify_iff hfuns]
    constructor
    · rintro ⟨τ, heq⟩
      exact exists_unifier_within hsb htb heq
    · rintro ⟨τ, -, heq⟩
      exact ⟨τ, heq⟩
  · exact (mem_vars_of_unify hrun hv).elim (hsb v) (htb v)

/-- The formula `![X]: p(t)`. -/
def quantifiedAtom (t : Term) : Term :=
  .quant .all [⟨0⟩] (.call ⟨0, .declared⟩ [t])

/-- The substitution that binds a variable to `a`. -/
def boundToConstant (v : Var) : Substitution :=
  Bindings.empty.add (.var v) (.const ⟨1, .declared⟩)

theorem acyclic_boundToConstant (v : Var) : (boundToConstant v).Acyclic :=
  acyclic_empty.add (by simp [vars, var?])

/-- Binding `Y` leaves `![X]: p(X)` as it is, and unifying it with `![X]: p(a)` binds `X`. -/
theorem closed_applyTo?_unify_quantifiedAtom :
    (quantifiedAtom (.var ⟨0⟩)).freeVars = [] ∧
      (quantifiedAtom (.const ⟨1, .declared⟩)).freeVars = [] ∧ (boundToConstant ⟨1⟩).Acyclic ∧
      (boundToConstant ⟨1⟩).applyTo? (quantifiedAtom (.var ⟨0⟩)) =
        some (quantifiedAtom (.var ⟨0⟩)) ∧
      ∃ τ : Var → Term, (∀ v, v ≠ ⟨0⟩ → τ v = .var v) ∧
        (quantifiedAtom (.var ⟨0⟩)).subst τ = (quantifiedAtom (.const ⟨1, .declared⟩)).subst τ := by
  have hs : (quantifiedAtom (.var ⟨0⟩)).freeVars = [] := by decide
  have ht : (quantifiedAtom (.const ⟨1, .declared⟩)).freeVars = [] := by decide
  have hacyclic := acyclic_boundToConstant ⟨1⟩
  have hkept := ((closed_applyTo?_unify hs).1 hacyclic).2 (by decide)
  obtain ⟨hunify, -⟩ := (closed_applyTo?_unify ht).2 hs (by decide)
  obtain ⟨τ, hτ, heq⟩ := hunify.1 ⟨boundToConstant ⟨0⟩, by rfl⟩
  refine ⟨hs, ht, hacyclic, hkept, τ, fun v hv => hτ v ?_, heq⟩
  simpa [quantifiedAtom, boundVars, binds] using hv

/-- **Terms without free variables do not all stay as they are, and do not unify only with
themselves**: binding `X` to `a` takes `![X]: p(X)` to `![X]: p(a)`, with which it unifies. -/
theorem not_closed_inert :
    (¬∀ (t : Term) (σ : Substitution), t.freeVars = [] → σ.Acyclic → σ.applyTo? t = some t) ∧
      ¬∀ s t : Term, s.freeVars = [] → t.freeVars = [] →
        (∃ σ, s.unify t .empty = .ok σ) → s = t := by
  constructor
  · intro h
    have hself := h (quantifiedAtom (.var ⟨0⟩)) (boundToConstant ⟨0⟩) (by decide)
      (acyclic_boundToConstant ⟨0⟩)
    exact absurd hself (by decide)
  · intro h
    have heq := h (quantifiedAtom (.var ⟨0⟩)) (quantifiedAtom (.const ⟨1, .declared⟩)) (by decide)
      (by decide) ⟨boundToConstant ⟨0⟩, by rfl⟩
    exact absurd heq (by decide)

end ClauseForm
