import ClauseForm.Proofs.Unification.Termination

/-!
# Unification is complete, and its results are most general

A unifier that is compatible with a substitution makes the two terms equal and
satisfies the bindings. If there is one, unification succeeds, and all unifiers
satisfy the bindings that it adds; so what the result does to a term is undone by no
unifier (`ClauseForm.unify_mostGeneral`).

The invariant of a run is that one fixed unifier satisfies all bindings made so far
(`ClauseForm.Term.unifyWithin_complete`). A clash contradicts it at once. A variable that
the occurs check finds would contradict it by size: along bindings what the unifier
puts in does not become larger, and inside a term it becomes smaller
(`ClauseForm.Substitution.Solves.size_le_of_reach`).
-/

namespace ClauseForm

open Relation

namespace Substitution

variable {τ : Var → Term} {σ : Substitution} {v x : Var} {t u : Term}

/-- What is put in for a variable is no larger than what is put in for one that leads to it. -/
theorem Solves.size_le_of_reach (hτ : Solves τ σ) (h : ReflTransGen σ.Leads x v) :
    (τ v).size ≤ (τ x).size := by
  induction h with
  | refl => exact Nat.le_refl _
  | @tail y z _ hyz ih =>
    obtain ⟨t, ht, hz⟩ := hyz
    refine Nat.le_trans ?_ ih
    rw [hτ y t ht]
    exact Term.size_le_size_subst hz

/-- **A variable that the occurs check finds keeps all unifiers away.** The term is not bound any
further itself, and is not the variable. -/
theorem Solves.ne_of_reach (hτ : Solves τ σ) (hne : .var v ≠ t) (hnext : σ.next? t = none)
    (hx : x ∈ t.vars) (h : ReflTransGen σ.Leads x v) : τ v ≠ t.subst τ := by
  intro heq
  have hle := hτ.size_le_of_reach h
  by_cases ht : t.isVar = true
  · -- an unbound variable leads nowhere but to itself
    obtain ⟨y, rfl⟩ := Term.isVar_iff.1 ht
    obtain rfl : x = y := by simpa using hx
    rw [next?_var] at hnext
    exact hne (congrArg Term.var ((reaches_iff_eq hnext).1 h)).symm
  · have hlt := Term.size_lt_size_subst (τ := τ) hx (by simpa using ht)
    rw [heq] at hle
    omega

/-- **What satisfies the bindings of an acyclic substitution** is what does not tell terms from what
applying the substitution makes of them. -/
theorem Acyclic.solves_iff (h : σ.Acyclic) :
    Solves τ σ ↔ ∀ t : Term, (t.subst σ.effect).subst τ = t.subst τ := by
  constructor
  · intro hτ t
    obtain ⟨r, hr, -⟩ := h.exists_ranks
    have hvar : ∀ n v, r v < n → (σ.effect v).subst τ = τ v := by
      intro n
      induction n with
      | zero => exact fun v hv => absurd hv (Nat.not_lt_zero _)
      | succ n ih =>
        intro v hv
        cases ht : σ.get? (.var v) with
        | none => rw [effect_of_get?_eq_none ht, Term.subst_var]
        | some t =>
          rw [solves_effect h v t ht, hτ v t ht, Term.subst_subst]
          refine Term.subst_congr fun x hx => ih x ?_
          have := hr.lt ⟨t, ht, hx⟩
          omega
    rw [Term.subst_subst]
    exact Term.subst_congr fun x _ => hvar (r x + 1) x (Nat.lt_succ_self _)
  · intro hτ v t ht
    have hv : (σ.effect v).subst τ = τ v := hτ (.var v)
    rw [← hv, solves_effect h v t ht, hτ t]

end Substitution

namespace Term

open Substitution

variable {τ : Var → Term} {σ : Substitution} {s t : Term} {ss ts : List Term} {n : Nat}

/-- A variable is bound if some unifier makes it equal to the term. -/
theorem bindVar_complete (h : σ.Acyclic) (hτ : Solves τ σ) {v : Var} (hne : .var v ≠ t)
    (hnext : σ.next? t = none) (heq : τ v = t.subst τ) :
    ∃ σ', bindVar v t σ = .ok σ' ∧ Solves τ σ' := by
  obtain ⟨b, hb, hreach⟩ := h.exists_occurs? v t
  cases b with
  | true =>
    -- the unifier would have to put in something larger than itself
    obtain ⟨x, hx, hxv⟩ := hreach.1 rfl
    exact absurd heq (hτ.ne_of_reach hne hnext hx hxv)
  | false => exact ⟨_, by rw [bindVar, hb], hτ.add heq⟩

/-- If some unifier makes all pairs equal, they are made equal one after the other. -/
theorem unifyPairs_complete
    (hstep : ∀ {s t σ}, σ.Acyclic → Solves τ σ → s.subst τ = t.subst τ →
      unifyWithin n s t σ ≠ .error .endless → ∃ σ', unifyWithin n s t σ = .ok σ' ∧ Solves τ σ')
    (h : σ.Acyclic) (hτ : Solves τ σ) (heq : ss.map (subst τ) = ts.map (subst τ))
    (hend : unifyPairs (unifyWithin n) ss ts σ ≠ .error .endless) :
    ∃ σ', unifyPairs (unifyWithin n) ss ts σ = .ok σ' ∧ Solves τ σ' := by
  induction ss generalizing ts σ with
  | nil => exact ⟨σ, by rw [unifyPairs]; simp, hτ⟩
  | cons s ss ih =>
    cases ts with
    | nil => simp at heq
    | cons t ts =>
      rw [List.map_cons, List.map_cons, List.cons.injEq] at heq
      rw [unifyPairs] at hend ⊢
      have hfirst : unifyWithin n s t σ ≠ .error .endless := fun herror => by
        rw [herror] at hend
        exact hend rfl
      obtain ⟨σ', hrun, hτ'⟩ := hstep h hτ heq.1 hfirst
      rw [hrun] at hend ⊢
      exact ih (unifyWithin_unified h.confined trivial trivial hrun).confined.acyclic hτ' heq.2 hend

/-- **A run that comes to an end finds an extension that a given unifier satisfies**, if the unifier
satisfies the bindings the run starts with. -/
theorem unifyWithin_complete (h : σ.Acyclic) (hτ : Solves τ σ) (heq : s.subst τ = t.subst τ)
    (hend : unifyWithin n s t σ ≠ .error .endless) :
    ∃ σ', unifyWithin n s t σ = .ok σ' ∧ Solves τ σ' := by
  induction n generalizing s t σ with
  | zero => exact absurd rfl hend
  | succ n ih =>
    obtain ⟨u, hu, hnext⟩ := h.exists_resolve? s
    obtain ⟨v, hv, hnext'⟩ := h.exists_resolve? t
    have huv : u.subst τ = v.subst τ := by
      rw [hτ.subst_resolve hu, hτ.subst_resolve hv, heq]
    rw [unifyWithin, hu, hv] at hend ⊢
    change unifyResolved (unifyWithin n) u v σ ≠ .error .endless at hend
    change ∃ σ', unifyResolved (unifyWithin n) u v σ = .ok σ' ∧ Solves τ σ'
    rcases unifyResolved_cases (unifyWithin n) u v σ with ⟨-, hok⟩ | ⟨hne, x, w, hxw, hbind⟩ |
      ⟨htop, hargs⟩ | ⟨hclash, -⟩
    · exact ⟨σ, hok, hτ⟩
    · rw [hbind]
      rcases hxw with ⟨rfl, rfl⟩ | ⟨rfl, rfl⟩
      · exact bindVar_complete h hτ hne hnext' huv
      · exact bindVar_complete h hτ hne.symm hnext huv.symm
    · have hmap := htop.map_args_eq huv
      have hlength : u.args.length = v.args.length := by
        simpa using congrArg List.length hmap
      rw [hargs, unifyArgs, if_pos hlength] at hend ⊢
      exact unifyPairs_complete ih h hτ hmap hend
    · exact absurd huv (hclash τ)

/-- A unifier that satisfies the bindings of an acyclic substitution satisfies those of the
extension that is found, and one is found. -/
theorem exists_unify (h : σ.Acyclic) (hτ : Solves τ σ) (heq : s.subst τ = t.subst τ) :
    ∃ σ', s.unify t σ = .ok σ' ∧ Solves τ σ' := by
  have hend := unify_ne_endless h s t
  rw [unify_eq] at hend ⊢
  exact unifyWithin_complete h hτ heq hend

end Term

open Term Substitution

/-- **Unification is complete and most general.** From an acyclic substitution `σ`,

* it succeeds for terms that some replacement makes equal which satisfies the bindings of `σ`, and
  that replacement satisfies the bindings of the result;
* so if it fails, there is no such replacement;
* and if it succeeds, every such replacement factors through the result: it does not tell a term
  from what applying the result makes of it. -/
theorem unify_mostGeneral {σ : Substitution} (h : σ.Acyclic) (s t : Term) :
    (∀ τ, s.subst τ = t.subst τ → Solves τ σ → ∃ σ', s.unify t σ = .ok σ' ∧ Solves τ σ') ∧
    (∀ e, s.unify t σ = .error e → ¬∃ τ, s.subst τ = t.subst τ ∧ Solves τ σ) ∧
    (∀ σ', s.unify t σ = .ok σ' → ∀ τ, s.subst τ = t.subst τ → Solves τ σ →
      ∀ r, ∃ u, σ'.applyTo? r = some u ∧ u.subst τ = r.subst τ) := by
  refine ⟨fun τ heq hτ => exists_unify h hτ heq, ?_, ?_⟩
  · rintro e he ⟨τ, heq, hτ⟩
    obtain ⟨σ', hrun, -⟩ := exists_unify h hτ heq
    rw [he] at hrun
    cases hrun
  · intro σ' hrun τ heq hτ r
    obtain ⟨σ₁, hrun₁, hτ'⟩ := exists_unify h hτ heq
    obtain rfl : σ' = σ₁ := Except.ok.inj (hrun.symm.trans hrun₁)
    have hacyclic := (unify_unified h hrun).confined.acyclic
    exact ⟨_, hacyclic.applyTo?_eq r, hacyclic.solves_iff.1 hτ' r⟩

/-- The replacement of `X` and `Y` by `f(a)` and of `Z` by `a`. -/
def chainUnifier (v : Var) : Term :=
  if v.id < 2 then .call ⟨0, .declared⟩ [.const ⟨2, .declared⟩]
  else if v.id = 2 then .const ⟨2, .declared⟩
  else .var v

theorem solves_chainUnifier : Solves chainUnifier chainStart := by
  intro v t hv
  by_cases h : v = ⟨1⟩
  · subst h
    obtain rfl : _ = t := Option.some.inj hv
    rfl
  · rw [chainStart, get?_add_var_of_ne h] at hv
    cases hv

theorem unify_mostGeneral_chain :
    chainStart.Acyclic ∧ chainLeft.subst chainUnifier = chainRight.subst chainUnifier ∧
      Solves chainUnifier chainStart ∧
      ∃ σ', chainLeft.unify chainRight chainStart = .ok σ' ∧ Solves chainUnifier σ' ∧
        ∀ r, ∃ u, σ'.applyTo? r = some u ∧ u.subst chainUnifier = r.subst chainUnifier := by
  have heq : chainLeft.subst chainUnifier = chainRight.subst chainUnifier := by rfl
  obtain ⟨hcomplete, -, hgeneral⟩ := unify_mostGeneral acyclic_chainStart chainLeft chainRight
  obtain ⟨σ', hrun, hτ⟩ := hcomplete chainUnifier heq solves_chainUnifier
  exact ⟨acyclic_chainStart, heq, solves_chainUnifier, σ', hrun, hτ,
    hgeneral σ' hrun chainUnifier heq solves_chainUnifier⟩

end ClauseForm
