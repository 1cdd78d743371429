import ClauseForm.Proofs.Unification.Cases

/-!
# Unification is sound

If two terms unify, the substitution found extends the given one, is acyclic again if
that was, and makes the terms equal (`ClauseForm.unify_sound`). It does so because
every replacement that satisfies its bindings makes them equal
(`ClauseForm.Term.unifyWithin_unified`), and the effect of an acyclic substitution is
such a replacement. Speaking of all replacements that satisfy the bindings, not of the
effect alone, is what carries the equality of the first arguments over to the
substitution found for the last ones, which has more bindings.

As function symbols are compared by number alone, no two of them that the run can
meet may share one (`ClauseForm.Term.Uniform`).
-/

namespace ClauseForm

namespace Term

open Substitution

variable {U : Term → Prop} {τ : Var → Term} {σ σ' σ'' : Substitution} {s t : Term}
  {step : Term → Term → Substitution → Except UnifyError Substitution}

/-- No two function symbols at the tops of terms in `U` share a number. -/
def Uniform (U : Term → Prop) : Prop :=
  ∀ s t f g, U s → U t → s.head? = some f → t.head? = some g → f.id = g.id → f = g

/-- What a run that makes terms equal in pairs has to show for it, if it starts with a substitution
confined to `U`: bindings added in front that keep it so, all of variables in `U`, and the terms
equal under every replacement that satisfies all bindings. -/
structure Unified (U : Term → Prop) (ss ts : List Term) (σ σ' : Substitution) : Prop where
  extendsTo : σ.ExtendsTo σ'
  keys : ∀ v, U (.var v) ∨ σ'.get? (.var v) = σ.get? (.var v)
  confined : σ'.Confined U
  map_eq : Uniform U → ∀ {τ}, Solves τ σ' → ss.map (subst τ) = ts.map (subst τ)

/-- Terms that are equal already. -/
theorem Unified.refl (h : σ.Confined U) (ss : List Term) : Unified U ss ss σ σ :=
  ⟨.refl, fun _ => Or.inr rfl, h, fun _ _ _ => rfl⟩

theorem Unified.symm {ss ts : List Term} (h : Unified U ss ts σ σ') : Unified U ts ss σ σ' :=
  ⟨h.extendsTo, h.keys, h.confined, fun hU _ hτ => (h.map_eq hU hτ).symm⟩

/-- One pair after the other: what satisfies the bindings for the rest satisfies those for the first
pair. -/
theorem Unified.cons {ss ts : List Term} (h : Unified U [s] [t] σ σ')
    (hrest : Unified U ss ts σ' σ'') : Unified U (s :: ss) (t :: ts) σ σ'' where
  extendsTo := h.extendsTo.trans hrest.extendsTo
  keys v := by
    rcases hrest.keys v with hv | hv
    · exact Or.inl hv
    · rw [hv]
      exact h.keys v
  confined := hrest.confined
  map_eq hU τ hτ := by
    have hst := h.map_eq hU (hrest.extendsTo.solves hτ)
    have hrest := hrest.map_eq hU hτ
    simp only [List.map_cons, List.map_nil, List.cons.injEq] at hst ⊢
    exact ⟨hst.1, hrest⟩

/-- Terms that the bindings lead to, in place of those they lead from. -/
theorem Unified.of_resolve {u v : Term} (hs : σ.resolve? s = some u) (ht : σ.resolve? t = some v)
    (h : Unified U [u] [v] σ σ') : Unified U [s] [t] σ σ' where
  extendsTo := h.extendsTo
  keys := h.keys
  confined := h.confined
  map_eq hU τ hτ := by
    have hσ := h.extendsTo.solves hτ
    have huv := h.map_eq hU hτ
    simp only [List.map_cons, List.map_nil, hσ.subst_resolve hs, hσ.subst_resolve ht] at huv ⊢
    exact huv

/-- Terms with tops that agree, by their arguments. -/
theorem Unified.of_args (htop : SameTop s t) (hs : U s) (ht : U t)
    (h : Unified U s.args t.args σ σ') : Unified U [s] [t] σ σ' where
  extendsTo := h.extendsTo
  keys := h.keys
  confined := h.confined
  map_eq hU τ hτ := by
    have hst := htop.subst_eq (fun f g hf hg => hU s t f g hs ht hf hg) (h.map_eq hU hτ)
    rw [List.map_singleton, List.map_singleton, hst]

/-! ### What a run does -/

/-- A binding makes the variable equal to the term. -/
theorem bindVar_unified (h : σ.Confined U) {v : Var} (hv : U (.var v)) (ht : U t)
    (hnone : σ.get? (.var v) = none) (hrun : bindVar v t σ = .ok σ') :
    Unified U [.var v] [t] σ σ' := by
  obtain ⟨b, hb, hreach⟩ := h.acyclic.exists_occurs? v t
  rw [bindVar, hb] at hrun
  cases b with
  | true => cases hrun
  | false =>
    obtain rfl := Except.ok.inj hrun
    -- the occurs check found nothing, so nothing in the term leads to the variable
    have hfree : ∀ x ∈ t.vars, ¬Relation.ReflTransGen σ.Leads x v := fun x hx hxv =>
      Bool.false_ne_true (hreach.2 ⟨x, hx, hxv⟩)
    refine ⟨.add t .refl hnone, fun w => ?_, h.add ht hfree, fun _ τ hτ => ?_⟩
    · by_cases hw : w = v
      · exact Or.inl (hw ▸ hv)
      · exact Or.inr (get?_add_var_of_ne hw)
    · have hvt : τ v = t.subst τ := hτ v t (Bindings.get?_add_self σ (.var v) t)
      rw [List.map_singleton, List.map_singleton, subst_var, hvt]

section Pairs

variable
  (hstep : ∀ s t σ σ', σ.Confined U → U s → U t → step s t σ = .ok σ' → Unified U [s] [t] σ σ')
include hstep

/-- If each step makes its two terms equal, the pairs are made equal one after the other. -/
theorem unifyPairs_unified {ss ts : List Term} (hlength : ss.length = ts.length)
    (hss : ∀ s ∈ ss, U s) (hts : ∀ t ∈ ts, U t) (h : σ.Confined U)
    (hrun : unifyPairs step ss ts σ = .ok σ') : Unified U ss ts σ σ' := by
  induction ss generalizing ts σ with
  | nil =>
    obtain rfl : ts = [] := List.length_eq_zero_iff.1 hlength.symm
    obtain rfl := Except.ok.inj hrun
    exact .refl h []
  | cons s ss ih =>
    obtain ⟨t, ts, rfl⟩ := List.exists_cons_of_length_eq_add_one hlength.symm
    rw [List.forall_mem_cons] at hss hts
    rw [unifyPairs] at hrun
    split at hrun
    · rename_i σ₁ hfirst
      have hst := hstep s t σ σ₁ h hss.1 hts.1 hfirst
      exact hst.cons (ih (Nat.succ.inj hlength) hss.2 hts.2 hst.confined hrun)
    · cases hrun

theorem unifyArgs_unified {ss ts : List Term} (hss : ∀ s ∈ ss, U s) (hts : ∀ t ∈ ts, U t)
    (h : σ.Confined U) (hrun : unifyArgs step ss ts σ = .ok σ') : Unified U ss ts σ σ' := by
  rw [unifyArgs] at hrun
  split at hrun
  · rename_i hlength
    exact unifyPairs_unified hstep hlength hss hts h hrun
  · cases hrun

/-- If each step makes its two terms equal, so does one level more, for terms that are bound no
further. -/
theorem unifyResolved_unified (h : σ.Confined U) (hs : U s) (ht : U t)
    (hs' : σ.next? s = none) (ht' : σ.next? t = none)
    (hrun : unifyResolved step s t σ = .ok σ') : Unified U [s] [t] σ σ' := by
  rcases unifyResolved_cases step s t σ with ⟨rfl, hok⟩ | ⟨-, v, u, hvu, hbind⟩ | ⟨htop, hargs⟩ |
    ⟨-, e, -, herror⟩
  · rw [hok] at hrun
    obtain rfl := Except.ok.inj hrun
    exact .refl h [s]
  · rw [hbind] at hrun
    rcases hvu with ⟨rfl, rfl⟩ | ⟨rfl, rfl⟩
    · exact bindVar_unified h hs ht hs' hrun
    · exact (bindVar_unified h ht hs ht' hrun).symm
  · rw [hargs] at hrun
    exact .of_args htop hs ht
      (unifyArgs_unified hstep (fun a ha => h.args hs ha) (fun a ha => h.args ht ha) h hrun)
  · rw [herror] at hrun
    cases hrun

end Pairs

/-- **A run that succeeds makes its two terms equal.** -/
theorem unifyWithin_unified {n : Nat} (h : σ.Confined U) (hs : U s) (ht : U t)
    (hrun : unifyWithin n s t σ = .ok σ') : Unified U [s] [t] σ σ' := by
  induction n generalizing s t σ σ' with
  | zero => cases hrun
  | succ n ih =>
    obtain ⟨u, hu, hnext⟩ := h.acyclic.exists_resolve? s
    obtain ⟨v, hv, hnext'⟩ := h.acyclic.exists_resolve? t
    rw [unifyWithin, hu, hv] at hrun
    exact .of_resolve hu hv (unifyResolved_unified (fun s t σ σ' h hs ht hrun => ih h hs ht hrun) h
      (h.resolve hs hu) (h.resolve ht hv) hnext hnext' hrun)

/-! ### The terms that a run can meet -/

/-- The parts of two terms and of all terms bound. -/
def stock (s t : Term) (σ : Substitution) : List Term :=
  s.parts ++ t.parts ++ σ.values.flatMap parts

theorem mem_stock {p : Term} :
    p ∈ stock s t σ ↔ p ∈ s.parts ∨ p ∈ t.parts ∨ ∃ u ∈ σ.values, p ∈ u.parts := by
  rw [stock, List.mem_append, List.mem_append, List.mem_flatMap, or_assoc]

theorem self_mem_stock_left (s t : Term) (σ : Substitution) : s ∈ stock s t σ :=
  mem_stock.2 (Or.inl s.self_mem_parts)

theorem self_mem_stock_right (s t : Term) (σ : Substitution) : t ∈ stock s t σ :=
  mem_stock.2 (Or.inr (Or.inl t.self_mem_parts))

/-- **A run does not leave the parts** of the terms it starts with and of those bound. -/
theorem confined_stock (s t : Term) (h : σ.Acyclic) : σ.Confined (· ∈ stock s t σ) where
  acyclic := h
  args {p a} hp ha := by
    have hpart := mem_parts_of_mem_args ha
    rw [mem_stock] at hp ⊢
    rcases hp with hp | hp | ⟨u, hu, hp⟩
    · exact Or.inl (mem_parts_trans hpart hp)
    · exact Or.inr (Or.inl (mem_parts_trans hpart hp))
    · exact Or.inr (Or.inr ⟨u, hu, mem_parts_trans hpart hp⟩)
  values {v u} hu := by
    have hmem : u ∈ σ.values :=
      List.mem_map.2 ⟨_, List.mem_reverse.2 (Bindings.mem_of_get? hu), rfl⟩
    exact mem_stock.2 (Or.inr (Or.inr ⟨u, hmem, u.self_mem_parts⟩))

/-- The symbols at the tops of the parts are those that occur. -/
theorem uniform_stock
    (h : ∀ f ∈ s.funs ++ t.funs ++ σ.values.flatMap funs,
      ∀ g ∈ s.funs ++ t.funs ++ σ.values.flatMap funs, f.id = g.id → f = g) :
    Uniform (· ∈ stock s t σ) := by
  have hmem : ∀ {p f}, p ∈ stock s t σ → p.head? = some f →
      f ∈ s.funs ++ t.funs ++ σ.values.flatMap funs := by
    intro p f hp hf
    rw [List.mem_append, List.mem_append, List.mem_flatMap, or_assoc]
    rcases mem_stock.1 hp with hp | hp | ⟨u, hu, hp⟩
    · exact Or.inl (List.mem_filterMap.2 ⟨p, hp, hf⟩)
    · exact Or.inr (Or.inl (List.mem_filterMap.2 ⟨p, hp, hf⟩))
    · exact Or.inr (Or.inr ⟨u, hu, List.mem_filterMap.2 ⟨p, hp, hf⟩⟩)
  exact fun p q f g hp hq hf hg hid => h f (hmem hp hf) g (hmem hq hg) hid

/-- What a run that succeeds has to show for it. -/
theorem unify_unified (h : σ.Acyclic) (hrun : s.unify t σ = .ok σ') :
    Unified (· ∈ stock s t σ) [s] [t] σ σ' := by
  rw [unify_eq] at hrun
  exact unifyWithin_unified (confined_stock s t h) (self_mem_stock_left s t σ)
    (self_mem_stock_right s t σ) hrun

end Term

open Term Substitution

/-- **Unification is sound.** If two terms unify under an acyclic substitution, and no two function
symbols that occur in the terms or in what the substitution binds share a number, the result is the
substitution with bindings added in front, each of a variable that was unbound until then; it is
acyclic again, and applying it makes the terms equal. -/
theorem unify_sound {s t : Term} {σ σ' : Substitution} (h : σ.Acyclic)
    (hfuns : ∀ f ∈ s.funs ++ t.funs ++ σ.values.flatMap funs,
      ∀ g ∈ s.funs ++ t.funs ++ σ.values.flatMap funs, f.id = g.id → f = g)
    (hrun : s.unify t σ = .ok σ') :
    σ.ExtendsTo σ' ∧ σ'.Acyclic ∧ ∃ u, σ'.applyTo? s = some u ∧ σ'.applyTo? t = some u := by
  have hunified := unify_unified h hrun
  have hacyclic := hunified.confined.acyclic
  have heq := hunified.map_eq (uniform_stock hfuns) (solves_effect hacyclic)
  rw [List.map_singleton, List.map_singleton, List.cons.injEq] at heq
  refine ⟨hunified.extendsTo, hacyclic, s.subst σ'.effect, hacyclic.applyTo?_eq s, ?_⟩
  rw [hacyclic.applyTo?_eq t, heq.1]

/-! A run that looks through bindings: from `Y ↦ f(Z)`, making `g(X, X)` and `g(Y, f(a))` equal
binds `X` to what `Y` is bound to, and then `Z`, which both lead to. -/

/-- The substitution that binds `Y` to `f(Z)`. -/
def chainStart : Substitution :=
  Bindings.empty.add (.var ⟨1⟩) (.call ⟨0, .declared⟩ [.var ⟨2⟩])

/-- The term `g(X, X)`. -/
def chainLeft : Term :=
  .call ⟨1, .declared⟩ [.var ⟨0⟩, .var ⟨0⟩]

/-- The term `g(Y, f(a))`. -/
def chainRight : Term :=
  .call ⟨1, .declared⟩ [.var ⟨1⟩, .call ⟨0, .declared⟩ [.const ⟨2, .declared⟩]]

/-- The start with `X` bound to `f(Z)`, and `Z` to `a`. -/
def chainEnd : Substitution :=
  (chainStart.add (.var ⟨0⟩) (.call ⟨0, .declared⟩ [.var ⟨2⟩])).add
    (.var ⟨2⟩) (.const ⟨2, .declared⟩)

theorem acyclic_chainStart : chainStart.Acyclic := by
  refine acyclic_empty.add fun x hx hreach => ?_
  obtain rfl : x = ⟨2⟩ := by simpa using hx
  rcases hreach.cases_head with heq | ⟨y, hlead, -⟩
  · cases heq
  · exact not_leads_empty hlead

theorem unify_sound_chain :
    chainLeft.unify chainRight chainStart = .ok chainEnd ∧ chainStart.ExtendsTo chainEnd ∧
      chainEnd.Acyclic ∧
      ∃ u, chainEnd.applyTo? chainLeft = some u ∧ chainEnd.applyTo? chainRight = some u :=
  have hrun : chainLeft.unify chainRight chainStart = .ok chainEnd := by rfl
  ⟨hrun, unify_sound acyclic_chainStart (by decide) hrun⟩

end ClauseForm
