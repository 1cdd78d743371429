import ClauseForm.Proofs.Unification.Soundness

/-!
# Unification comes to an end

From an acyclic substitution, unification never runs into its limits
(`ClauseForm.unify_ne_endless`). A level of the run looks at two terms of a finite
stock, the parts of the terms given and of those bound. A binding added takes one
variable of the stock from those that are unbound
(`ClauseForm.Substitution.unbound`). Between two additions, a term unfolds
(`ClauseForm.Substitution.Unfolds`) to its arguments, or to what it is bound to; nothing
unfolds to itself (`ClauseForm.Substitution.Acyclic.not_unfolds_self`), so fewer and
fewer terms of the stock are left to unfold to
(`ClauseForm.Substitution.remaining`). Terms may still become larger by being followed
through the bindings, which is why their sizes do not tell how far there is to go.
-/

namespace ClauseForm

open Relation

namespace Substitution

variable {σ σ' : Substitution} {l : List Term} {s t u : Term} {v : Var}

/-! ### Unfolding terms -/

/-- The second term is an argument of the first one, or what that is bound to. -/
inductive Unfolds (σ : Substitution) : Term → Term → Prop where
  /-- To an argument. -/
  | arg {t a : Term} (h : a ∈ t.args) : Unfolds σ t a
  /-- To what a variable is bound to. -/
  | binding {v : Var} {t : Term} (h : σ.get? (.var v) = some t) : Unfolds σ (.var v) t

/-- **Without cycles no term unfolds to itself.** With all bindings made, arguments are smaller and
bindings do not matter; and along bindings alone the ranks of variables go down. -/
theorem Acyclic.not_unfolds_self (h : σ.Acyclic) (t : Term) : ¬TransGen σ.Unfolds t t := by
  obtain ⟨r, hr, -⟩ := h.exists_ranks
  let size (t : Term) : Nat := (t.subst σ.effect).size
  let rank (t : Term) : Nat := (t.var?.map r).getD 0
  -- a lexicographic measure: bindings keep the size, and lower the rank
  have hstep : ∀ {t u}, σ.Unfolds t u → size u < size t ∨ size u = size t ∧ rank u < rank t := by
    intro t u htu
    cases htu with
    | arg ha =>
      have hvar : t.isVar = false := by
        cases t with
        | var v => simp [Term.args] at ha
        | _ => rfl
      refine Or.inl (Term.size_lt_of_mem_args ?_)
      rw [Term.args_subst hvar]
      exact List.mem_map_of_mem ha
    | @binding v _ hv =>
      refine Or.inr ⟨congrArg Term.size (solves_effect h v u hv).symm, ?_⟩
      change rank u < r v
      cases u with
      | var w => exact hr.lt ⟨_, hv, by simp⟩
      | _ => exact hr.pos hv
  have hpath : ∀ {t u}, TransGen σ.Unfolds t u →
      size u < size t ∨ size u = size t ∧ rank u < rank t := by
    intro t u htu
    induction htu with
    | single hu => exact hstep hu
    | tail _ hu ih =>
      have := hstep hu
      omega
  intro ht
  have := hpath ht
  omega

open Classical in
/-- How many terms of a list a term unfolds to, in one or more steps. -/
noncomputable def remaining (l : List Term) (σ : Substitution) (t : Term) : Nat :=
  l.countP fun u => decide (TransGen σ.Unfolds t u)

theorem remaining_le_length (l : List Term) (σ : Substitution) (t : Term) :
    remaining l σ t ≤ l.length :=
  List.countP_le_length

open Classical in
/-- Each step of unfolding leaves fewer terms. -/
theorem Unfolds.remaining_lt (h : σ.Unfolds t u) (hσ : σ.Acyclic) (hu : u ∈ l) :
    remaining l σ u < remaining l σ t := by
  refine countP_lt_of_imp (fun p _ hp => ?_) hu (decide_eq_true (.single h))
    (decide_eq_false (hσ.not_unfolds_self u))
  exact decide_eq_true (.head h (of_decide_eq_true hp))

/-- Following bindings does not leave more terms. -/
theorem Confined.remaining_resolve_le (h : σ.Confined (· ∈ l)) (hu : σ.resolve? t = some u) :
    remaining l σ u ≤ remaining l σ t :=
  resolveWithin_induct (P := fun s => remaining l σ s ≤ remaining l σ t)
    (fun _ _ hle hs => Nat.le_trans
      (Nat.le_of_lt ((Unfolds.binding hs).remaining_lt h.acyclic (h.values hs))) hle)
    (Nat.le_refl _) hu

/-! ### Unbound variables -/

/-- How many terms of a list are unbound variables. -/
def unbound (l : List Term) (σ : Substitution) : Nat :=
  l.countP fun t => t.isVar && (σ.get? t).isNone

theorem unbound_le_length (l : List Term) (σ : Substitution) : unbound l σ ≤ l.length :=
  List.countP_le_length

/-- A substitution that is extended binds a variable more, unless nothing is added. -/
theorem ExtendsTo.eq_or_exists (h : σ.ExtendsTo σ') :
    σ' = σ ∨ ∃ v t, σ.get? (.var v) = none ∧ σ'.get? (.var v) = some t := by
  induction h with
  | refl => exact Or.inl rfl
  | @add σ' v t h hv _ =>
    refine Or.inr ⟨v, t, ?_, Bindings.get?_add_self σ' (.var v) t⟩
    cases hs : σ.get? (.var v) with
    | none => rfl
    | some s =>
      rw [h.get?_eq_some hs] at hv
      cases hv

/-- Binding variables of the list leaves fewer of them unbound. -/
theorem ExtendsTo.unbound_lt (h : σ.ExtendsTo σ')
    (hkeys : ∀ v, .var v ∈ l ∨ σ'.get? (.var v) = σ.get? (.var v)) :
    σ' = σ ∨ unbound l σ' < unbound l σ := by
  rcases h.eq_or_exists with heq | ⟨v, t, hv, hv'⟩
  · exact Or.inl heq
  have hmem : .var v ∈ l := (hkeys v).resolve_right fun heq => by
    rw [hv, hv'] at heq
    cases heq
  refine Or.inr (countP_lt_of_imp (fun p _ hp => ?_) hmem (by simp [Term.isVar, hv])
    (by simp [hv']))
  rw [Bool.and_eq_true] at hp ⊢
  obtain ⟨w, rfl⟩ := Term.isVar_iff.1 hp.1
  refine ⟨rfl, ?_⟩
  cases hs : σ.get? (.var w) with
  | none => rfl
  | some s =>
    rw [h.get?_eq_some hs] at hp
    simp at hp

end Substitution

namespace Term

open Substitution

variable {σ σ' : Substitution} {l ss ts : List Term} {s t u : Term} {n : Nat}

/-! ### Depth enough -/

/-- How much deeper a run that has come to `t` may have to go: for each binding that may still be
added as deep as the list is long, and before the next one as deep as `t` unfolds. -/
noncomputable def depthLeft (l : List Term) (σ : Substitution) (t : Term) : Nat :=
  unbound l σ * (l.length + 1) + remaining l σ t

/-- No run has to go deeper behind another run than it would have had to before. -/
theorem Unified.depthLeft_le (h : Unified (· ∈ l) ss ts σ σ') (p : Term) :
    depthLeft l σ' p ≤ depthLeft l σ p := by
  rcases h.extendsTo.unbound_lt h.keys with rfl | hlt
  · exact Nat.le_refl _
  · have hmul := Nat.mul_le_mul_right (l.length + 1) (Nat.succ_le_of_lt hlt)
    have hle := remaining_le_length l σ' p
    rw [Nat.succ_mul] at hmul
    rw [depthLeft, depthLeft]
    omega

/-- Binding a variable takes no depth. -/
theorem bindVar_ne_endless (h : σ.Acyclic) (v : Var) (t : Term) :
    bindVar v t σ ≠ .error .endless := by
  obtain ⟨b, hb, -⟩ := h.exists_occurs? v t
  rw [bindVar, hb]
  cases b <;> simp

/-- Runs for pairs come to an end if those for each pair do, from as many bindings as there may be
by then. -/
theorem unifyPairs_ne_endless
    (hrun : ∀ {s t σ}, σ.Confined (· ∈ l) → s ∈ l → t ∈ l → depthLeft l σ s < n →
      unifyWithin n s t σ ≠ .error .endless) (h : σ.Confined (· ∈ l))
    (hss : ∀ s ∈ ss, s ∈ l ∧ depthLeft l σ s < n) (hts : ∀ t ∈ ts, t ∈ l) :
    unifyPairs (unifyWithin n) ss ts σ ≠ .error .endless := by
  induction ss generalizing ts σ with
  | nil => simp [unifyPairs]
  | cons s ss ih =>
    cases ts with
    | nil => simp [unifyPairs]
    | cons t ts =>
      rw [List.forall_mem_cons] at hss hts
      have hfirst := hrun h hss.1.1 hts.1 hss.1.2
      rw [unifyPairs]
      split
      · rename_i σ' hok
        have hst := unifyWithin_unified h hss.1.1 hts.1 hok
        -- the bindings added do not make the other pairs go deeper
        refine ih hst.confined (fun a ha => ⟨(hss.2 a ha).1, ?_⟩) hts.2
        exact Nat.lt_of_le_of_lt (hst.depthLeft_le a) (hss.2 a ha).2
      · rename_i e herror
        exact herror ▸ hfirst

/-- **A run that may go deep enough comes to an end.** The induction is on the depth; on each level
the arguments unfold to fewer terms, and the runs for the arguments on the left only add
bindings. -/
theorem unifyWithin_ne_endless (h : σ.Confined (· ∈ l)) (hs : s ∈ l) (ht : t ∈ l)
    (hn : depthLeft l σ s < n) : unifyWithin n s t σ ≠ .error .endless := by
  induction n generalizing s t σ with
  | zero => exact absurd hn (Nat.not_lt_zero _)
  | succ n ih =>
    obtain ⟨u, hu, -⟩ := h.acyclic.exists_resolve? s
    obtain ⟨v, hv, -⟩ := h.acyclic.exists_resolve? t
    rw [unifyWithin, hu, hv]
    show unifyResolved (unifyWithin n) u v σ ≠ .error .endless
    rcases unifyResolved_cases (unifyWithin n) u v σ with ⟨-, hok⟩ | ⟨-, x, w, -, hbind⟩ |
      ⟨-, hargs⟩ | ⟨-, e, he, herror⟩
    · simp [hok]
    · rw [hbind]
      exact bindVar_ne_endless h.acyclic x w
    · rw [hargs, unifyArgs]
      split
      · refine unifyPairs_ne_endless ih h (fun a ha => ?_) fun a ha =>
          h.args (h.resolve ht hv) ha
        have hmem : a ∈ l := h.args (h.resolve hs hu) ha
        have hlt := (Unfolds.arg ha : σ.Unfolds u a).remaining_lt h.acyclic hmem
        have hle := h.remaining_resolve_le hu
        rw [depthLeft] at hn
        exact ⟨hmem, by rw [depthLeft]; omega⟩
      · simp
    · simpa [herror] using he

theorem length_stock (s t : Term) (σ : Substitution) :
    (stock s t σ).length = s.size + t.size + sizeAll σ.values := by
  rw [stock, List.length_append, List.length_append, length_parts, length_parts,
    length_flatMap_parts fun p _ => p.length_parts]

/-- The depth that unification allows for is enough. -/
theorem depthLeft_lt_unifyDepth (s t p : Term) (σ : Substitution) :
    depthLeft (stock s t σ) σ p < unifyDepth s t σ := by
  have hlength := length_stock s t σ
  have hunbound := unbound_le_length (stock s t σ) σ
  have hremaining := remaining_le_length (stock s t σ) σ p
  rw [unifyDepth, ← hlength, depthLeft]
  generalize (stock s t σ).length = N at *
  calc unbound (stock s t σ) σ * (N + 1) + remaining (stock s t σ) σ p
      ≤ N * (N + 1) + N := Nat.add_le_add (Nat.mul_le_mul_right _ hunbound) hremaining
    _ < (N + 1) * (N + 1) := by rw [Nat.succ_mul]; omega
    _ = Nat.pow (N + 1) 2 := (Nat.pow_two _).symm
    _ ≤ Nat.pow (N + 1) 3 := Nat.pow_le_pow_right (Nat.succ_pos N) (by decide)

end Term

open Term Substitution

/-- **From an acyclic substitution unification always comes to an end**, with an extension or with a
reason why there is none. -/
theorem unify_ne_endless {σ : Substitution} (h : σ.Acyclic) (s t : Term) :
    s.unify t σ ≠ .error .endless := by
  rw [unify_eq]
  refine unifyWithin_ne_endless (confined_stock s t h) (self_mem_stock_left s t σ)
    (self_mem_stock_right s t σ) ?_
  exact Nat.lt_of_lt_of_le (depthLeft_lt_unifyDepth s t s σ) (Nat.le_max_right _ _)

/-! ### Runs one after the other -/

/-- The second substitution is what the first one becomes by unifying terms, as often as wanted. -/
inductive Substitution.Reaches (σ : Substitution) : Substitution → Prop where
  /-- Nothing was unified. -/
  | refl : Reaches σ σ
  /-- Two more terms were unified. -/
  | step {σ' σ'' : Substitution} {s t : Term} (h : Reaches σ σ')
      (hrun : s.unify t σ' = .ok σ'') : Reaches σ σ''

/-- Unifying terms makes no cycle, whatever terms these are. -/
theorem Substitution.Reaches.acyclic {σ σ' : Substitution} (h : σ.Reaches σ') (hσ : σ.Acyclic) :
    σ'.Acyclic := by
  induction h with
  | refl => exact hσ
  | step _ hrun ih => exact (unify_unified ih hrun).confined.acyclic

/-- **From an acyclic substitution everything comes to an end.** Unifying two terms does: from some
depth on it makes no difference how deep the run may go, and it is not the depth that ends it. The
substitutions that are reached by unifying terms are acyclic again; and for each of them, following
the bindings of a term, looking for a variable in it and applying the substitution to it come to an
end as well, with an answer that no limit from the number of bindings on has to do with. -/
theorem unification_ends {σ : Substitution} (h : σ.Acyclic) :
    (∀ s t, ∃ n, ∀ m, n ≤ m →
      unifyWithin m s t σ = s.unify t σ ∧ unifyWithin m s t σ ≠ .error .endless) ∧
    ∀ σ', σ.Reaches σ' → σ'.Acyclic ∧
      (∀ t, ∃ u, ∀ n, σ'.limit ≤ n → σ'.resolveWithin n t = some u) ∧
      (∀ v t, ∃ b, ∀ n, σ'.limit ≤ n → σ'.occursWithin v n t = some b) ∧
      ∀ t, ∃ u, ∀ n, σ'.limit ≤ n → σ'.applyWithin n t = some u := by
  refine ⟨fun s t => ?_, fun σ' hreach => ?_⟩
  · have hends := unify_ne_endless h s t
    rw [unify_eq] at hends
    refine ⟨max shallowDepth (unifyDepth s t σ), fun m hm => ?_⟩
    rw [unify_eq, unifyWithin_mono hm hends]
    exact ⟨rfl, hends⟩
  · have hσ' := hreach.acyclic h
    refine ⟨hσ', fun t => ?_, fun v t => hσ'.exists_occursWithin v t, fun t => ?_⟩
    · obtain ⟨u, hu, -⟩ := hσ'.exists_resolve? t
      exact ⟨u, fun n hn => resolveWithin_mono hn hu⟩
    · exact ⟨_, fun n hn => applyWithin_mono hn (hσ'.applyTo?_eq t)⟩

theorem unification_ends_chain :
    chainStart.Acyclic ∧ chainStart.Reaches chainEnd ∧
      (∀ s t, ∃ n, ∀ m, n ≤ m → unifyWithin m s t chainStart = s.unify t chainStart ∧
        unifyWithin m s t chainStart ≠ .error .endless) ∧
      ∀ σ', chainStart.Reaches σ' → σ'.Acyclic ∧
        (∀ t, ∃ u, ∀ n, σ'.limit ≤ n → σ'.resolveWithin n t = some u) ∧
        (∀ v t, ∃ b, ∀ n, σ'.limit ≤ n → σ'.occursWithin v n t = some b) ∧
        ∀ t, ∃ u, ∀ n, σ'.limit ≤ n → σ'.applyWithin n t = some u :=
  have hrun : chainLeft.unify chainRight chainStart = .ok chainEnd := by rfl
  ⟨acyclic_chainStart, .step .refl hrun, unification_ends acyclic_chainStart⟩

end ClauseForm
