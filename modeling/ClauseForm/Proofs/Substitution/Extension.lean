import ClauseForm.Proofs.Substitution.Acyclic

/-!
# Extending a substitution

A substitution is extended by adding bindings in front, each of a variable that was
unbound until then (`ClauseForm.Substitution.ExtendsTo`). The bindings that were there
stay in force, so what satisfies the extension satisfies the original
(`ClauseForm.Substitution.ExtendsTo.solves`).

A binding that passes the occurs check keeps an acyclic substitution acyclic
(`ClauseForm.Substitution.Acyclic.add`): a new cycle would have to go through the
variable just bound, and back to it from a variable of its value by older bindings.
-/

namespace ClauseForm

namespace Substitution

open Relation

variable {σ σ' σ'' : Substitution} {τ : Var → Term} {v w : Var} {s t u : Term}

/-! ### One binding more -/

theorem get?_add_var_of_ne (h : w ≠ v) : (σ.add (.var v) t).get? (.var w) = σ.get? (.var w) :=
  Bindings.get?_add_of_ne fun heq => h (Term.var.inj heq)

/-- What a variable leads to when one more variable is bound. -/
theorem Leads.of_add {x y : Var} (h : Leads (σ.add (.var v) t) x y) :
    (x = v ∧ y ∈ t.vars) ∨ σ.Leads x y := by
  obtain ⟨u, hu, hy⟩ := h
  by_cases hx : x = v
  · rw [hx, Bindings.get?_add_self, Option.some.injEq] at hu
    exact Or.inl ⟨hx, hu ▸ hy⟩
  · rw [get?_add_var_of_ne hx] at hu
    exact Or.inr ⟨u, hu, hy⟩

/-- **A binding that passes the occurs check makes no cycle.** -/
theorem Acyclic.add (h : σ.Acyclic) (ht : ∀ x ∈ t.vars, ¬ReflTransGen σ.Leads x v) :
    Acyclic (σ.add (.var v) t) := by
  -- a path uses the new binding once or not at all: behind it nothing leads back to the variable
  have hpath : ∀ {x y}, TransGen (Leads (σ.add (.var v) t)) x y → TransGen σ.Leads x y ∨
      ReflTransGen σ.Leads x v ∧ ∃ z ∈ t.vars, ReflTransGen σ.Leads z y := by
    intro x y hxy
    induction hxy with
    | single hl =>
      rcases hl.of_add with ⟨rfl, hy⟩ | hl
      · exact Or.inr ⟨.refl, _, hy, .refl⟩
      · exact Or.inl (.single hl)
    | tail _ hl ih =>
      rcases hl.of_add with ⟨rfl, hy⟩ | hl
      · rcases ih with ih | ⟨-, z, hz, hzv⟩
        · exact Or.inr ⟨ih.to_reflTransGen, _, hy, .refl⟩
        · exact absurd hzv (ht z hz)
      · rcases ih with ih | ⟨hxv, z, hz, hzy⟩
        · exact Or.inl (ih.tail hl)
        · exact Or.inr ⟨hxv, z, hz, hzy.tail hl⟩
  intro x hx
  rcases hpath hx with hx | ⟨hxv, z, hz, hzx⟩
  · exact h x hx
  · exact ht z hz (hzx.trans hxv)

/-- A replacement that satisfies the bindings and does not tell a variable from a term satisfies
the binding of the one to the other as well. -/
theorem Solves.add (h : Solves τ σ) (hv : τ v = t.subst τ) : Solves τ (σ.add (.var v) t) := by
  intro w u hw
  by_cases hwv : w = v
  · rw [hwv, Bindings.get?_add_self, Option.some.injEq] at hw
    rw [hwv, ← hw, hv]
  · rw [get?_add_var_of_ne hwv] at hw
    exact h w u hw

/-! ### Any number of bindings more -/

/-- The second substitution is the first one with any number of bindings added in front, each of a
variable that is unbound before. -/
inductive ExtendsTo (σ : Substitution) : Substitution → Prop where
  /-- No bindings are added. -/
  | refl : ExtendsTo σ σ
  /-- One more binding is added, of a variable that the first substitution and the additions so
  far leave unbound. -/
  | add {σ' : Substitution} {v : Var} (t : Term) (h : ExtendsTo σ σ')
      (hv : σ'.get? (.var v) = none) : ExtendsTo σ (σ'.add (.var v) t)

theorem ExtendsTo.trans (h : σ.ExtendsTo σ') (h' : σ'.ExtendsTo σ'') : σ.ExtendsTo σ'' := by
  induction h' with
  | refl => exact h
  | add t _ hv ih => exact ih.add t hv

/-- The bindings that were there stay in force. -/
theorem ExtendsTo.get?_eq_some (h : σ.ExtendsTo σ') (hv : σ.get? (.var v) = some t) :
    σ'.get? (.var v) = some t := by
  induction h with
  | refl => exact hv
  | @add σ' w u _ hw ih =>
    have hne : v ≠ w := by
      rintro rfl
      rw [hw] at ih
      cases ih
    rw [get?_add_var_of_ne hne, ih]

/-- What satisfies all bindings satisfies those that were there before. -/
theorem ExtendsTo.solves (h : σ.ExtendsTo σ') (hτ : Solves τ σ') : Solves τ σ :=
  fun v t hv => hτ v t (h.get?_eq_some hv)

/-! ### Substitutions confined to some terms -/

/-- A substitution without cycles that binds variables to terms in `U` only, where the arguments of
the terms in `U` are in `U` as well. -/
structure Confined (U : Term → Prop) (σ : Substitution) : Prop where
  acyclic : σ.Acyclic
  args : ∀ {t a}, U t → a ∈ t.args → U a
  values : ∀ {v t}, σ.get? (.var v) = some t → U t

variable {U : Term → Prop}

/-- Every acyclic substitution is confined to the terms. -/
theorem Acyclic.confined (h : σ.Acyclic) : σ.Confined fun _ => True :=
  ⟨h, fun _ _ => trivial, fun _ => trivial⟩

/-- The bindings do not lead out of `U`. -/
theorem Confined.resolve (h : σ.Confined U) (ht : U t) (hu : σ.resolve? t = some u) : U u :=
  resolveWithin_induct (fun _ _ _ hs => h.values hs) ht hu

/-- Binding a variable to a term in `U` that passes the occurs check. -/
theorem Confined.add (h : σ.Confined U) (ht : U t)
    (hocc : ∀ x ∈ t.vars, ¬ReflTransGen σ.Leads x v) : Confined U (σ.add (.var v) t) where
  acyclic := h.acyclic.add hocc
  args := h.args
  values {w u} hw := by
    by_cases hwv : w = v
    · rw [hwv, Bindings.get?_add_self, Option.some.injEq] at hw
      exact hw ▸ ht
    · rw [get?_add_var_of_ne hwv] at hw
      exact h.values hw

end Substitution

end ClauseForm
