import ClauseForm.Proofs.Negation.Shape

/-!
# Normal forms of normal forms

Bringing a formula into negation normal form twice, under one sign and then under another,
is bringing it there once, under the two signs taken together
(`ClauseForm.Term.Signed.nnf_nnf`). So the formulas that stay as they are under the sign `true`
are those that are in normal form already (`ClauseForm.Term.nnf_eq_self_iff`), and no double
negation is left behind when a normal form is negated, be it through the left side of a
biconditional or through a conjunction of nothing. For the rule itself, which works through a
list of tasks, this is `ClauseForm.lowerNot_lowerNot`.
-/

namespace ClauseForm

namespace Term

/-! ### Two signs -/

/-- Turning the first of two signs turns what they come to together. -/
theorem not_beq_sign (s₁ s₂ : Bool) : ((!s₁) == s₂) = !(s₁ == s₂) := by
  cases s₁ <;> cases s₂ <;> rfl

/-- A conjunction that the first sign left, or the disjunction that it made of it. -/
theorem nnf_signed_conj (args : List Term) (s₁ s₂ : Bool) :
    (Term.node (if s₁ then .and else .or) args).nnf s₂ =
      .node (if s₁ == s₂ then .and else .or) (args.map (nnf · s₂)) := by
  cases s₁ <;> cases s₂ <;> simp [nnf]

/-- A disjunction that the first sign left, or the conjunction that it made of it. -/
theorem nnf_signed_disj (args : List Term) (s₁ s₂ : Bool) :
    (Term.node (if s₁ then .or else .and) args).nnf s₂ =
      .node (if s₁ == s₂ then .or else .and) (args.map (nnf · s₂)) := by
  cases s₁ <;> cases s₂ <;> simp [nnf]

/-- **Two signs compose.** -/
theorem Signed.nnf_nnf {t : Term} {s₁ : Bool} (h : Signed t s₁) (s₂ : Bool) :
    (t.nnf s₁).nnf s₂ = t.nnf (s₁ == s₂) := by
  induction h generalizing s₂ with
  | atom s₁ ha => rw [nnf_atom ha, nnf_atom ha, nnf_literal ha]
  | notEquals s t s₁ => rw [nnf, nnf, nnf_literal rfl, not_beq_sign]
  | not _ ih => rw [nnf, nnf, ih, not_beq_sign]
  | conj _ ih =>
    rw [nnf, nnf, nnfAll_eq_map, nnfAll_eq_map, nnf_signed_conj, List.map_map]
    exact congrArg _ (List.map_congr_left fun a ha => ih a ha s₂)
  | disj _ ih =>
    rw [nnf, nnf, nnfAll_eq_map, nnfAll_eq_map, nnf_signed_disj, List.map_map]
    exact congrArg _ (List.map_congr_left fun a ha => ih a ha s₂)
  | nand _ _ hs ht =>
    rw [nnf, nnf, nnfAll_eq_map, nnfAll_eq_map, nnf_signed_disj]
    simp only [List.map_cons, List.map_nil, hs, ht, not_beq_sign]
  | nor _ _ hs ht =>
    rw [nnf, nnf, nnfAll_eq_map, nnfAll_eq_map, nnf_signed_conj]
    simp only [List.map_cons, List.map_nil, hs, ht, not_beq_sign]
  | implies _ _ hs ht =>
    rw [nnf, nnf, nnf_signed_disj]
    simp only [List.map_cons, List.map_nil, hs, ht, not_beq_sign]
  -- the right side has its own sign, which is `true` both times
  | iff _ _ hs ht => rw [nnf, nnf, nnf, hs, ht, beq_self_eq_true]
  | xor _ _ hs ht => rw [nnf, nnf, nnf, hs, ht, beq_self_eq_true, not_beq_sign]
  | @quant q xs body s₁ _ ih =>
    rw [nnf, nnf, nnf, ih]
    cases s₁ <;> cases s₂ <;> simp

/-! ### What stays as it is -/

/-- A normal form is its own normal form. -/
theorem Normal.nnf_eq {t : Term} (h : t.Normal) : t.nnf true = t := by
  induction h with
  | atom ha => exact nnf_atom ha true
  | @negated a ha => exact nnf_literal ha false true
  | conj _ ih | disj _ ih =>
    rw [nnf, nnfAll_eq_map, if_pos rfl, List.map_congr_left ih, List.map_id']
  | iff _ _ hs ht => rw [nnf, hs, ht]
  | quant _ ih => rw [nnf, if_pos rfl, ih]

/-- **The formulas that stay as they are are the normal forms.** -/
theorem nnf_eq_self_iff {t : Term} (h : t.KeepsArities) : t.nnf true = t ↔ t.Normal :=
  ⟨fun heq => heq ▸ (h.signed true).normal_nnf, Normal.nnf_eq⟩

/-- The normal form lists the same free variables, in the same order. -/
theorem Signed.freeVars_nnf {t : Term} {sign : Bool} (h : Signed t sign) :
    (t.nnf sign).freeVars = t.freeVars := by
  rw [freeVars, freeVars, collectFree_eq, collectFree_eq, h.free_nnf]

end Term

open Term

/-- **Normal forms compose.** Under either sign, a well-formed formula has a normal form, with the
same free variables in the same order, which has the normal form of the formula under the two signs
taken together; and the formulas that the sign `true` leaves as they are are the normal forms. -/
theorem lowerNot_lowerNot {t : Term} (ht : t.WellFormed) :
    (∀ sign, ∃ u, t.lowerNot sign = .ok u ∧ u.freeVars = t.freeVars ∧
      ∀ sign', ∃ w, u.lowerNot sign' = .ok w ∧ t.lowerNot (sign == sign') = .ok w) ∧
    (t.lowerNot true = .ok t ↔ t.Normal) := by
  have hk := ht.keepsArities
  refine ⟨fun sign => ?_, ?_⟩
  · have hsigned := hk.signed sign
    refine ⟨t.nnf sign, lowerNot_eq_nnf hk sign, hsigned.freeVars_nnf, fun sign' => ?_⟩
    refine ⟨_, lowerNot_eq_nnf (hsigned.keepsArities_nnf hk) sign', ?_⟩
    rw [lowerNot_eq_nnf hk, hsigned.nnf_nnf]
  · rw [lowerNot_eq_nnf hk, Except.ok.injEq, nnf_eq_self_iff hk]

/-- The formula `~(p <~> (?[X]: (q(X) => &()) | X != a))`. -/
def negatedExample : Term :=
  .neg (.node .xor [.const ⟨0, .declared⟩, .disj [
    .quant .exist [⟨0⟩] (.imp (.call ⟨1, .declared⟩ [.var ⟨0⟩]) (.conj [])),
    .node .notEquals [.var ⟨0⟩, .const ⟨2, .declared⟩]]])

theorem lowerNot_lowerNot_negatedExample :
    negatedExample.WellFormed ∧
      (∀ sign, ∃ u, negatedExample.lowerNot sign = .ok u ∧ u.freeVars = negatedExample.freeVars ∧
        ∀ sign', ∃ w, u.lowerNot sign' = .ok w ∧
          negatedExample.lowerNot (sign == sign') = .ok w) ∧
      (negatedExample.lowerNot true = .ok negatedExample ↔ negatedExample.Normal) :=
  ⟨by decide, lowerNot_lowerNot (by decide)⟩

end ClauseForm
