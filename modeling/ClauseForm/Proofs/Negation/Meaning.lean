import ClauseForm.Proofs.Negation.Shape
import ClauseForm.Proofs.Semantics.Interpretation

/-!
# What the normal form says

The negation normal form of a formula under the sign `true` says the same as the
formula, and under the sign `false` the opposite
(`ClauseForm.Term.Signed.holds_nnf`, `ClauseForm.lowerNot_holds`), in every
interpretation and under every valuation, with quantifiers anywhere.
-/

universe u

namespace ClauseForm

namespace Interpretation

variable {D : Type u} (I : Interpretation D)

theorem holds_literal (t : Term) (sign : Bool) (v : Var → D) :
    I.Holds (Task.literal t sign) v ↔ (I.Holds t v ↔ sign = true) := by
  cases sign <;> simp [Task.literal, Term.neg]

end Interpretation

namespace Term

open Interpretation

variable {D : Type u} {I : Interpretation D}

/-- **The normal form says what the formula says**, or the opposite if the sign is `false`. -/
theorem Signed.holds_nnf {t : Term} {sign : Bool} (h : Signed t sign) (v : Var → D) :
    I.Holds (t.nnf sign) v ↔ (I.Holds t v ↔ sign = true) := by
  induction h generalizing v with
  | atom sign ha => rw [nnf_atom ha, holds_literal]
  | notEquals s t sign =>
    rw [nnf, holds_literal]
    cases sign <;> simp
  | @not t sign _ ih =>
    rw [nnf, ih]
    cases sign <;> simp
  | @conj args sign _ ih =>
    rw [nnf, nnfAll_eq_map]
    -- under the sign `false` this is De Morgan's law
    cases sign
    · simp only [Bool.false_eq_true, if_false, holds_disj_map, holds_conj, iff_false,
        Classical.not_forall, exists_prop]
      exact exists_congr fun a => and_congr_right fun ha => by simpa using ih a ha v
    · rw [if_pos rfl, holds_conj_map, holds_conj, iff_true_right rfl]
      exact forall_congr' fun a => imp_congr_right fun ha => by simpa using ih a ha v
  | @disj args sign _ ih =>
    rw [nnf, nnfAll_eq_map]
    cases sign
    · simp only [Bool.false_eq_true, if_false, holds_conj_map, holds_disj, iff_false, not_exists,
        not_and]
      exact forall_congr' fun a => imp_congr_right fun ha => by simpa using ih a ha v
    · rw [if_pos rfl, holds_disj_map, holds_disj, iff_true_right rfl]
      exact exists_congr fun a => and_congr_right fun ha => by simpa using ih a ha v
  | @nand s t sign _ _ hs ht | @nor s t sign _ _ hs ht | @implies s t sign _ _ hs ht
  | @iff s t sign _ _ hs ht | @xor s t sign _ _ hs ht =>
    cases sign <;> simp [nnf, hs, ht] <;> grind
  | @quant q vars body sign _ ih =>
    cases q <;> cases sign <;> simp [nnf, Quantifier.dual, ih]

end Term

open Term

/-- **Pushing negations down keeps the meaning.** A formula, with quantifiers wherever they may
stand, has a normal form that is true where the formula is true, and one under the sign `false`
that is true where the formula is not: in every interpretation and under every valuation. -/
theorem lowerNot_holds {t : Term} (hf : t.isFormula = true) :
    ∃ p n, t.lowerNot true = .ok p ∧ t.lowerNot false = .ok n ∧
      p.isFormula = true ∧ n.isFormula = true ∧
      ∀ {D : Type u} (I : Interpretation D) (v : Var → D),
        (I.Holds p v ↔ I.Holds t v) ∧ (I.Holds n v ↔ ¬I.Holds t v) := by
  have hk := KeepsArities.of_isFormula hf
  have hsigned := hk.signed
  refine ⟨t.nnf true, t.nnf false, lowerNot_eq_nnf hk true, lowerNot_eq_nnf hk false,
    (hsigned true).isFormula_nnf hf, (hsigned false).isFormula_nnf hf, fun I v => ?_⟩
  have hpositive := (hsigned true).holds_nnf (I := I) v
  have hnegative := (hsigned false).holds_nnf (I := I) v
  exact ⟨by simpa using hpositive, by simpa using hnegative⟩

/-- The formula `p <~> ![X]: (q(X) => ?[Y]: X != Y)`. -/
def sidedExample : Term :=
  .node .xor [.const ⟨0, .declared⟩, .quant .all [⟨0⟩] (.imp (.call ⟨1, .declared⟩ [.var ⟨0⟩])
    (.quant .exist [⟨1⟩] (.node .notEquals [.var ⟨0⟩, .var ⟨1⟩])))]

theorem lowerNot_holds_sidedExample :
    sidedExample.isFormula = true ∧
      ∃ p n, sidedExample.lowerNot true = .ok p ∧ sidedExample.lowerNot false = .ok n ∧
        p.isFormula = true ∧ n.isFormula = true ∧
        ∀ {D : Type} (I : Interpretation D) (v : Var → D),
          (I.Holds p v ↔ I.Holds sidedExample v) ∧ (I.Holds n v ↔ ¬I.Holds sidedExample v) :=
  ⟨by decide, lowerNot_holds.{0} (by decide)⟩

end ClauseForm
