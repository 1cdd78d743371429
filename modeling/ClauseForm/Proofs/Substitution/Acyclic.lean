import Mathlib.Logic.Relation
import ClauseForm.Proofs.Substitution.Walk

/-!
# Acyclic substitutions

The newest binding of a variable *leads* to the variables that occur in it
(`ClauseForm.Substitution.Leads`), and a substitution is *acyclic* if no variable leads
back to itself (`ClauseForm.Substitution.Acyclic`). Acyclic substitutions are those
with ranks (`ClauseForm.Substitution.Ranks`), numbers for the variables that go down
along the bindings; as there are only finitely many bindings, ranks can be kept
below their number (`ClauseForm.Substitution.Acyclic.exists_ranks`).

So no walk through an acyclic substitution runs into its limit. Applying it
replaces each variable by its *effect* (`ClauseForm.Substitution.effect`), and the
effects satisfy all bindings at once (`ClauseForm.Substitution.solves_effect`).
-/

namespace ClauseForm

open Relation

/-- A value that is found is the value of some binding. -/
theorem Bindings.mem_of_get? {κ ν : Type} [DecidableEq κ] {b : Bindings κ ν} {key : κ} {value : ν}
    (h : b.get? key = some value) : (key, value) ∈ b.chain := by
  obtain ⟨chain, size⟩ := b
  change chain.lookup key = some value at h
  change (key, value) ∈ chain
  induction chain with
  | nil => simp at h
  | cons p chain ih =>
    rw [List.lookup_cons] at h
    split at h
    · rename_i hkey
      obtain rfl : key = p.1 := by simpa using hkey
      rw [← Option.some.inj h]
      exact List.mem_cons_self
    · exact List.mem_cons_of_mem p (ih h)

/-- Of two predicates of which one is stronger, and strictly so on the list, the stronger one holds
less often. -/
theorem countP_lt_of_imp {α : Type} {p q : α → Bool} {l : List α}
    (h : ∀ a ∈ l, p a = true → q a = true) {a : α} (ha : a ∈ l) (hq : q a = true)
    (hp : p a = false) : l.countP p < l.countP q := by
  induction l with
  | nil => simp at ha
  | cons b l ih =>
    rw [List.forall_mem_cons] at h
    have hle : l.countP p ≤ l.countP q := List.countP_mono_left h.2
    rw [List.countP_cons, List.countP_cons]
    rcases List.mem_cons.1 ha with rfl | ha
    · simp only [hp, hq, Bool.false_eq_true, if_false, if_true]
      omega
    · have hlt := ih h.2 ha
      cases hpb : p b
      · simp only [Bool.false_eq_true, if_false]
        omega
      · simp only [h.1 hpb, if_true]
        omega

namespace Substitution

variable {σ : Substitution} {v w : Var} {t u : Term}

/-- The newest binding of the first variable mentions the second one. -/
def Leads (σ : Substitution) (v w : Var) : Prop :=
  ∃ t, σ.get? (.var v) = some t ∧ w ∈ t.vars

/-- No variable leads back to itself through the newest bindings. -/
def Acyclic (σ : Substitution) : Prop :=
  ∀ v, ¬TransGen σ.Leads v v

/-- No variable leads anywhere without bindings. -/
theorem not_leads_empty : ¬Leads Bindings.empty v w := by
  rintro ⟨t, ht, -⟩
  cases ht

/-- Without bindings there are no cycles. -/
theorem acyclic_empty : Acyclic Bindings.empty := fun v hv => by
  obtain ⟨w, hvw, -⟩ := TransGen.head'_iff.1 hv
  exact not_leads_empty hvw

/-! ### Ranks -/

/-- Numbers that go down along the bindings, and are not zero for bound variables. -/
structure Ranks (σ : Substitution) (r : Var → Nat) : Prop where
  pos : ∀ {v t}, σ.get? (.var v) = some t → 0 < r v
  lt : ∀ {v w}, σ.Leads v w → r w < r v

/-- Where there are ranks, there are no cycles. -/
theorem Ranks.acyclic {r : Var → Nat} (h : σ.Ranks r) : σ.Acyclic := by
  have hlt : ∀ {v w}, TransGen σ.Leads v w → r w < r v := by
    intro v w hvw
    induction hvw with
    | single hl => exact h.lt hl
    | tail _ hl ih => exact Nat.lt_trans (h.lt hl) ih
  exact fun v hv => Nat.lt_irrefl _ (hlt hv)

/-- A variable whose rank is zero is unbound. -/
theorem Ranks.get?_eq_none {r : Var → Nat} (h : σ.Ranks r) (hv : r v = 0) :
    σ.get? (.var v) = none :=
  Option.eq_none_iff_forall_ne_some.2 fun _ ht => Nat.ne_of_gt (h.pos ht) hv

open Classical in
/-- **Without cycles there are ranks**, none above the number of bindings: how many bindings there
are for the variables that a variable leads to, itself included. -/
theorem Acyclic.exists_ranks (h : σ.Acyclic) : ∃ r, σ.Ranks r ∧ ∀ v, r v ≤ σ.limit := by
  let reaches (v : Var) (b : Term × Term) : Bool :=
    decide (∃ w, b.1 = .var w ∧ ReflTransGen σ.Leads v w)
  have hself : ∀ {v t}, σ.get? (.var v) = some t → reaches v (.var v, t) = true := fun _ =>
    decide_eq_true ⟨_, rfl, .refl⟩
  refine ⟨fun v => σ.chain.countP (reaches v), ⟨fun {v t} hv => ?_, fun {v w} hvw => ?_⟩, fun v =>
    List.countP_le_length⟩
  · exact List.countP_pos_iff.2 ⟨_, Bindings.mem_of_get? hv, hself hv⟩
  · obtain ⟨t, hv, -⟩ := id hvw
    refine countP_lt_of_imp (fun b _ hb => ?_) (Bindings.mem_of_get? hv) (hself hv) ?_
    · obtain ⟨x, hx, hwx⟩ := of_decide_eq_true hb
      exact decide_eq_true ⟨x, hx, .head hvw hwx⟩
    · -- the variable behind does not lead to the one in front
      refine decide_eq_false ?_
      rintro ⟨x, hx, hwx⟩
      obtain rfl : v = x := Term.var.inj hx
      exact h v (TransGen.head' hvw hwx)

/-! ### Following bindings -/

theorem next?_var (σ : Substitution) (v : Var) : σ.next? (.var v) = σ.get? (.var v) :=
  if_pos rfl

/-- A replacement satisfies the bindings: every bound variable is given what its newest binding
becomes. -/
def Solves (τ : Var → Term) (σ : Substitution) : Prop :=
  ∀ v t, σ.get? (.var v) = some t → τ v = t.subst τ

/-- A walk that starts below its limit comes to the end of the bindings, and no replacement that
satisfies them tells the end from the start. -/
theorem exists_resolveWithin {r : Var → Nat} (hr : σ.Ranks r) {n : Nat}
    (h : ∀ v, t = .var v → r v ≤ n) :
    ∃ u, σ.resolveWithin n t = some u ∧ σ.next? u = none := by
  induction n generalizing t with
  | zero =>
    have hnone : σ.next? t = none := by
      cases t with
      | var v =>
        rw [next?_var]
        exact hr.get?_eq_none (Nat.le_zero.1 (h v rfl))
      | _ => rfl
    exact ⟨t, by simp [resolveWithin, hnone], hnone⟩
  | succ n ih =>
    rw [resolveWithin]
    cases hnext : σ.next? t with
    | none => exact ⟨t, rfl, hnext⟩
    | some s =>
      refine ih fun w hw => ?_
      cases t with
      | var v =>
        rw [next?_var] at hnext
        have hlt : r w < r v := hr.lt ⟨s, hnext, by simp [hw]⟩
        have := h v rfl
        omega
      | _ => simp [next?, Term.isVar] at hnext

/-- **In an acyclic substitution every walk comes to an end.** -/
theorem Acyclic.exists_resolve? (h : σ.Acyclic) (t : Term) :
    ∃ u, σ.resolve? t = some u ∧ σ.next? u = none := by
  obtain ⟨r, hr, hlimit⟩ := h.exists_ranks
  exact exists_resolveWithin hr fun v _ => hlimit v

/-- A higher limit changes nothing in a walk that came to an end. -/
theorem resolveWithin_mono {m n : Nat} (hmn : m ≤ n) (h : σ.resolveWithin m t = some u) :
    σ.resolveWithin n t = some u := by
  induction m generalizing n t with
  | zero =>
    rw [resolveWithin] at h
    split at h
    · cases h
    · rename_i hnext
      rw [Option.not_isSome_iff_eq_none] at hnext
      cases n with
      | zero => simpa [resolveWithin, hnext] using h
      | succ n => simpa [resolveWithin, hnext] using h
  | succ m ih =>
    obtain ⟨n, rfl⟩ : ∃ k, n = k + 1 := ⟨n - 1, by omega⟩
    rw [resolveWithin] at h ⊢
    split at h
    · exact ih (Nat.le_of_succ_le_succ hmn) h
    · exact h

/-- What a walk comes to is what it started at, or bound by the substitution. -/
theorem resolveWithin_induct {P : Term → Prop}
    (hP : ∀ v s, P (.var v) → σ.get? (.var v) = some s → P s) {n : Nat} (ht : P t)
    (hu : σ.resolveWithin n t = some u) : P u := by
  induction n generalizing t with
  | zero =>
    rw [resolveWithin] at hu
    split at hu
    · cases hu
    · exact Option.some.inj hu ▸ ht
  | succ n ih =>
    rw [resolveWithin] at hu
    split at hu
    · rename_i s hnext
      cases t with
      | var v => exact ih (hP v s ht (next?_var σ v ▸ hnext)) hu
      | _ => simp [next?, Term.isVar] at hnext
    · exact Option.some.inj hu ▸ ht

/-- No replacement that satisfies the bindings tells a term from what it leads to. -/
theorem Solves.subst_resolve {τ : Var → Term} (hτ : Solves τ σ) (h : σ.resolve? t = some u) :
    u.subst τ = t.subst τ :=
  resolveWithin_induct (P := fun s => s.subst τ = t.subst τ)
    (fun v s hv hs => by rw [← hv, Term.subst_var, hτ v s hs]) rfl h

/-! ### Occurrences seen through the bindings -/

/-- From an unbound variable only the variable itself is reached. -/
theorem reaches_iff_eq {x : Var} (hx : σ.get? (.var x) = none) :
    ReflTransGen σ.Leads x v ↔ x = v := by
  constructor
  · intro h
    rcases h.cases_head with heq | ⟨y, ⟨s, hs, -⟩, -⟩
    · exact heq
    · rw [hx] at hs
      cases hs
  · rintro rfl
    exact .refl

/-- From a bound variable that variable is reached, and what is reached from its value. -/
theorem reaches_iff {x : Var} (hx : σ.get? (.var x) = some t) :
    ReflTransGen σ.Leads x v ↔ x = v ∨ ∃ y ∈ t.vars, ReflTransGen σ.Leads y v := by
  constructor
  · intro h
    rcases h.cases_head with heq | ⟨y, ⟨s, hs, hy⟩, hyv⟩
    · exact Or.inl heq
    · obtain rfl : t = s := Option.some.inj (hx.symm.trans hs)
      exact Or.inr ⟨y, hy, hyv⟩
  · rintro (rfl | ⟨y, hy, hyv⟩)
    · exact .refl
    · exact .head ⟨t, hx, hy⟩ hyv

open Classical in
/-- Within a limit above the ranks, the search finds what can be reached. -/
theorem occursWithin_eq {r : Var → Nat} (hr : σ.Ranks r) {n : Nat} (h : ∀ x ∈ t.vars, r x ≤ n) :
    σ.occursWithin v n t = some (t.vars.any fun x => decide (ReflTransGen σ.Leads x v)) := by
  induction n generalizing t with
  | zero =>
    rw [occursWithin]
    refine Term.anyVar?_eq_some fun x hx => ?_
    have hnone := hr.get?_eq_none (Nat.le_zero.1 (h x hx))
    rw [next?_var, hnone]
    simp only [reaches_iff_eq hnone]
    by_cases hxv : x = v <;> simp [hxv]
  | succ n ih =>
    rw [occursWithin]
    refine Term.anyVar?_eq_some fun x hx => ?_
    rw [next?_var]
    cases hs : σ.get? (.var x) with
    | none =>
      simp only [reaches_iff_eq hs]
      by_cases hxv : x = v <;> simp [hxv]
    | some s =>
      have hvars : ∀ y ∈ s.vars, r y ≤ n := fun y hy => by
        have := hr.lt ⟨s, hs, hy⟩
        have := h x hx
        omega
      by_cases hxv : x = v
      · simp [hxv, ReflTransGen.refl]
      · show (if x = v then _ else σ.occursWithin v n s) = _
        rw [if_neg hxv, ih hvars, Option.some.injEq, Bool.eq_iff_iff, List.any_eq_true,
          decide_eq_true_iff, reaches_iff hs, or_iff_right hxv]
        exact exists_congr fun y => and_congr_right fun _ => decide_eq_true_iff

/-- **The occurs check sees through the bindings**, and comes to an end if they are acyclic. -/
theorem Acyclic.exists_occurs? (h : σ.Acyclic) (v : Var) (t : Term) :
    ∃ b, σ.occurs? v t = some b ∧ (b = true ↔ ∃ x ∈ t.vars, ReflTransGen σ.Leads x v) := by
  classical
  obtain ⟨r, hr, hlimit⟩ := h.exists_ranks
  refine ⟨_, occursWithin_eq hr fun x _ => hlimit x, ?_⟩
  rw [List.any_eq_true]
  exact exists_congr fun x => and_congr_right fun _ => decide_eq_true_iff

/-- **Whatever limit is allowed from the number of bindings on, the occurs check finds the
same.** -/
theorem Acyclic.exists_occursWithin (h : σ.Acyclic) (v : Var) (t : Term) :
    ∃ b, ∀ n, σ.limit ≤ n → σ.occursWithin v n t = some b := by
  classical
  obtain ⟨r, hr, hlimit⟩ := h.exists_ranks
  exact ⟨_, fun n hn => occursWithin_eq hr fun x _ => Nat.le_trans (hlimit x) hn⟩

/-! ### Applying -/

/-- Applying a substitution replaces each variable by what becomes of it. -/
theorem applyWithin_eq (σ : Substitution) (n : Nat) (t : Term) :
    σ.applyWithin n t = t.replace? fun v => σ.applyWithin n (.var v) := by
  cases n <;> rfl

/-- A higher limit changes nothing in a success. -/
theorem applyWithin_succ {n : Nat} (h : σ.applyWithin n t = some u) :
    σ.applyWithin (n + 1) t = some u := by
  induction n generalizing t u with
  | zero =>
    rw [applyWithin_eq] at h ⊢
    refine Term.replace?_mono (fun x _ s hs => ?_) h
    simp only [applyWithin, Term.replace?] at hs ⊢
    split at hs
    · cases hs
    · rename_i hnone
      rw [Option.not_isSome_iff_eq_none.1 hnone]
      exact hs
  | succ n ih =>
    rw [applyWithin_eq] at h ⊢
    refine Term.replace?_mono (fun x _ s hs => ?_) h
    rw [applyWithin, Term.replace?] at hs ⊢
    split at hs
    · exact ih hs
    · exact hs

theorem applyWithin_mono {m n : Nat} (hmn : m ≤ n) (h : σ.applyWithin m t = some u) :
    σ.applyWithin n t = some u := by
  induction hmn with
  | refl => exact h
  | step _ ih => exact applyWithin_succ ih

/-- What becomes of a variable when the substitution is applied. -/
def effect (σ : Substitution) (v : Var) : Term :=
  (σ.applyTo? (.var v)).getD (.var v)

/-- Within a limit above the ranks, applying comes to an end. -/
theorem exists_applyWithin {r : Var → Nat} (hr : σ.Ranks r) {n : Nat} (h : ∀ x ∈ t.vars, r x ≤ n) :
    ∃ u, σ.applyWithin n t = some u := by
  have hvars : ∀ x ∈ t.vars, (σ.applyWithin n (.var x)).isSome = true := by
    intro x hx
    induction n generalizing t x with
    | zero =>
      have hnone := hr.get?_eq_none (Nat.le_zero.1 (h x hx))
      rw [applyWithin, Term.replace?, next?_var, hnone]
      rfl
    | succ n ih =>
      rw [applyWithin, Term.replace?, next?_var]
      cases hs : σ.get? (.var x) with
      | none => rfl
      | some s =>
        have hle : ∀ y ∈ s.vars, r y ≤ n := fun y hy => by
          have := hr.lt ⟨s, hs, hy⟩
          have := h x hx
          omega
        have hrun := Term.replace?_eq_some_iff.2 ⟨fun y hy => ih hle y hy, rfl⟩
        rw [← applyWithin_eq] at hrun
        exact Option.isSome_iff_exists.2 ⟨_, hrun⟩
  exact ⟨_, (applyWithin_eq σ n t).trans (Term.replace?_eq_some_iff.2 ⟨hvars, rfl⟩)⟩

/-- **Applying an acyclic substitution comes to an end**, with every variable replaced by its
effect. -/
theorem Acyclic.applyTo?_eq (h : σ.Acyclic) (t : Term) :
    σ.applyTo? t = some (t.subst σ.effect) := by
  obtain ⟨r, hr, hlimit⟩ := h.exists_ranks
  rw [applyTo?, applyWithin_eq]
  refine Term.replace?_eq_subst fun x _ => ?_
  obtain ⟨u, hu⟩ := exists_applyWithin (t := .var x) hr fun y _ => hlimit y
  rw [hu, effect, applyTo?, hu, Option.getD_some]

/-- **The effects satisfy all bindings at once.** -/
theorem solves_effect (h : σ.Acyclic) : Solves σ.effect σ := by
  obtain ⟨r, hr, hlimit⟩ := h.exists_ranks
  intro v t hv
  have hpos : 0 < σ.limit := Nat.lt_of_lt_of_le (hr.pos hv) (hlimit v)
  -- the variable takes one binding of the limit, and its value makes do with the rest
  obtain ⟨n, hn⟩ : ∃ n, σ.limit = n + 1 := ⟨σ.limit - 1, by omega⟩
  obtain ⟨u, hu⟩ := exists_applyWithin hr fun x (hx : x ∈ t.vars) => show r x ≤ n by
    have := hr.lt ⟨t, hv, hx⟩
    have := hlimit v
    omega
  have hvar : σ.applyTo? (.var v) = some u := by
    rw [applyTo?, hn, applyWithin, Term.replace?, next?_var, hv]
    exact hu
  have happly : σ.applyTo? t = some u := by
    rw [applyTo?, hn]
    exact applyWithin_succ hu
  rw [effect, hvar, Option.getD_some]
  exact Option.some.inj (happly.symm.trans (h.applyTo?_eq t))

/-- An unbound variable stays what it is. -/
theorem effect_of_get?_eq_none (h : σ.get? (.var v) = none) : σ.effect v = .var v := by
  have hvar : σ.applyTo? (.var v) = some (.var v) := by
    rw [applyTo?]
    cases σ.limit with
    | zero =>
      rw [applyWithin, Term.replace?, next?_var, h]
      rfl
    | succ n => rw [applyWithin, Term.replace?, next?_var, h]
  rw [effect, hvar, Option.getD_some]

/-- A bound variable that becomes a variable leads to one that becomes the same. -/
theorem Acyclic.exists_leads_of_effect (h : σ.Acyclic) (hu : σ.get? (.var w) = some u)
    (hw : σ.effect w = .var v) : ∃ x, σ.Leads w x ∧ σ.effect x = .var v := by
  rw [solves_effect h w u hu] at hw
  cases u with
  | var x => exact ⟨x, ⟨_, hu, by simp⟩, by simpa using hw⟩
  | _ => simp [Term.subst] at hw

/-- A variable leads to the one that it becomes. -/
theorem Acyclic.reaches_of_effect (h : σ.Acyclic) (hw : σ.effect w = .var v) :
    ReflTransGen σ.Leads w v := by
  obtain ⟨r, hr, -⟩ := h.exists_ranks
  induction hn : r w using Nat.strongRecOn generalizing w with
  | _ n ih =>
    cases hu : σ.get? (.var w) with
    | none =>
      rw [effect_of_get?_eq_none hu] at hw
      cases hw
      exact .refl
    | some u =>
      obtain ⟨x, hlead, hx⟩ := h.exists_leads_of_effect hu hw
      exact .head hlead (ih (r x) (hn ▸ hr.lt hlead) hx rfl)

/-- **Exactly the unbound variables stay what they are.** -/
theorem Acyclic.effect_eq_var_iff (h : σ.Acyclic) :
    σ.effect v = .var v ↔ σ.get? (.var v) = none := by
  refine ⟨fun hv => ?_, effect_of_get?_eq_none⟩
  cases hu : σ.get? (.var v) with
  | none => rfl
  | some u =>
    obtain ⟨x, hlead, hx⟩ := h.exists_leads_of_effect hu hv
    exact absurd (TransGen.head'_iff.2 ⟨x, hlead, h.reaches_of_effect hx⟩) (h v)

end Substitution

end ClauseForm
