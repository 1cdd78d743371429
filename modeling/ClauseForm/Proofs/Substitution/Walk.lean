import ClauseForm.Proofs.Syntax.Replacement
import ClauseForm.Substitution

/-!
# Walks through a term

A walk visits every variable of a term, and what it comes to is told by the answers
at the variables: replacing is `ClauseForm.Term.subst` if there is an answer at each
(`ClauseForm.Term.replace?_eq_some_iff`), and searching is a search through the list
of variables (`ClauseForm.Term.anyVar?_eq_some`).
-/

namespace ClauseForm

namespace Term

variable {f : Var → Option Term} {t u : Term}

/-! ### Replacing -/

/-- Replacing where there is an answer at each variable. -/
theorem replace?_eq_subst {τ : Var → Term} (h : ∀ x ∈ t.vars, f x = some (τ x)) :
    t.replace? f = some (t.subst τ) := by
  have hall : ∀ ts : List Term, (∀ a ∈ ts, a.replace? f = some (a.subst τ)) →
      replaceAll? f ts = some (ts.map (subst τ)) := by
    intro ts h
    induction ts with
    | nil => rfl
    | cons a ts ih =>
      rw [List.forall_mem_cons] at h
      rw [replaceAll?, h.1, ih h.2]
      rfl
  induction t using Term.induct with
  | var x => simpa [replace?] using h
  | call g args ih | node op args ih =>
    simp only [vars_call, vars_node, List.mem_flatMap] at h
    rw [replace?, hall args fun a ha => ih a ha fun x hx => h x ⟨a, ha, hx⟩]
    simp
  | quant q vars body ih =>
    rw [replace?, ih (by simpa using h)]
    simp
  | _ => rfl

/-- Replacing fails at the first variable without an answer. -/
theorem isSome_of_replace? (h : t.replace? f = some u) : ∀ x ∈ t.vars, (f x).isSome = true := by
  have hall : ∀ ts us : List Term, replaceAll? f ts = some us →
      (∀ a ∈ ts, ∀ u, a.replace? f = some u → ∀ x ∈ a.vars, (f x).isSome = true) →
      ∀ a ∈ ts, ∀ x ∈ a.vars, (f x).isSome = true := by
    intro ts us hts h
    induction ts generalizing us with
    | nil => simp
    | cons a ts ih =>
      rw [List.forall_mem_cons] at h ⊢
      rw [replaceAll?] at hts
      split at hts
      · rename_i u hu
        obtain ⟨us, hus, -⟩ := Option.map_eq_some_iff.1 hts
        exact ⟨h.1 u hu, ih us hus h.2⟩
      · cases hts
  induction t using Term.induct generalizing u with
  | var x =>
    rw [replace?] at h
    simp [h]
  | call g args ih | node op args ih =>
    rw [replace?] at h
    obtain ⟨us, hus, -⟩ := Option.map_eq_some_iff.1 h
    simp only [vars_call, vars_node, List.mem_flatMap]
    rintro x ⟨a, ha, hx⟩
    exact hall args us hus (fun a ha u hu => ih a ha hu) a ha x hx
  | quant q vars body ih =>
    rw [replace?] at h
    obtain ⟨u, hu, -⟩ := Option.map_eq_some_iff.1 h
    simpa using ih hu
  | _ => simp [vars, var?]

/-- **Replacing succeeds exactly if there is an answer at each variable.** -/
theorem replace?_eq_some_iff : t.replace? f = some u ↔
    (∀ x ∈ t.vars, (f x).isSome = true) ∧ u = t.subst fun x => (f x).getD (.var x) := by
  have hsubst : (∀ x ∈ t.vars, (f x).isSome = true) →
      t.replace? f = some (t.subst fun x => (f x).getD (.var x)) := fun h =>
    replace?_eq_subst fun x hx => by
      obtain ⟨s, hs⟩ := Option.isSome_iff_exists.1 (h x hx)
      simp [hs]
  constructor
  · intro h
    have hsome := isSome_of_replace? h
    rw [hsubst hsome] at h
    exact ⟨hsome, (Option.some.inj h).symm⟩
  · rintro ⟨hsome, rfl⟩
    exact hsubst hsome

/-- More answers change nothing in a success. -/
theorem replace?_mono {g : Var → Option Term} (h : ∀ x ∈ t.vars, ∀ s, f x = some s → g x = some s)
    (hu : t.replace? f = some u) : t.replace? g = some u := by
  rw [replace?_eq_some_iff] at hu ⊢
  obtain ⟨hsome, rfl⟩ := hu
  have hg : ∀ x ∈ t.vars, g x = f x := fun x hx => by
    obtain ⟨s, hs⟩ := Option.isSome_iff_exists.1 (hsome x hx)
    rw [hs, h x hx s hs]
  exact ⟨fun x hx => hg x hx ▸ hsome x hx, subst_congr fun x hx => by rw [hg x hx]⟩

/-! ### Searching -/

/-- Searching where there is an answer at each variable. -/
theorem anyVar?_eq_some {p : Var → Option Bool} {q : Var → Bool}
    (h : ∀ x ∈ t.vars, p x = some (q x)) : t.anyVar? p = some (t.vars.any q) := by
  have hall : ∀ ts : List Term, (∀ a ∈ ts, a.anyVar? p = some (a.vars.any q)) →
      anyVarAll? p ts = some ((ts.flatMap vars).any q) := by
    intro ts h
    induction ts with
    | nil => rfl
    | cons a ts ih =>
      rw [List.forall_mem_cons] at h
      rw [anyVarAll?, h.1, ih h.2, List.flatMap_cons, List.any_append]
      cases a.vars.any q <;> rfl
  induction t using Term.induct with
  | var x => simpa [anyVar?] using h
  | call g args ih | node op args ih =>
    simp only [vars_call, vars_node, List.mem_flatMap] at h ⊢
    exact hall args fun a ha => ih a ha fun x hx => h x ⟨a, ha, hx⟩
  | quant q vars body ih =>
    rw [anyVar?, vars_quant]
    exact ih (by simpa using h)
  | _ => rfl

end Term

end ClauseForm
