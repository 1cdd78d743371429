import ClauseForm.Proofs.Conversion.Invariance
import ClauseForm.Proofs.Conversion.Reentry

/-!
# No faults on well-formed terms

On well-formed terms, every rule comes to an end without a fault, and what it hands on is
well-formed again (`ClauseForm.total_of_wellFormed`).

For a conversion, the formulas handed on are the definitions of the names that it introduces,
which it converts in their turn. So that nothing is said of some of them only, they are checked
while the conversion goes on: `ClauseForm.ConvertM.convertChecked` ends in a fault wherever it
is given a formula that is not well-formed, at whatever depth. Checking only adds faults
(`ClauseForm.ConvertM.refines_convertChecked`); that it adds none is shown by running the two
conversions side by side (`ClauseForm.ConvertM.mirrors_convertChecked`).
-/

namespace ClauseForm

open Conversion Term

namespace Term

variable {ρ : Relabeling} {t t' : Term}

/-- The image of a term without quantifiers is well-formed if the term keeps the argument counts. -/
theorem Twin.wellFormed_right (h : Twin ρ t t') : t'.WellFormed := by
  refine h.keepsArities_right.wellFormed ?_
  rw [h.eq, relabel, quantifierFree_mapSymbols]
  exact h.quantifierFree

end Term

namespace ConvertM

/-! ### Checking what is converted -/

/-- Converts a closed formula as `ClauseForm.convertWithin` does, and the definitions in the same
way, but ends in a fault if it is given a formula that is not well-formed. -/
def convertChecked : Nat → Term → ConvertM Unit
  | 0, _ => throw .nesting
  | limit + 1, formula =>
    if formula.WellFormed then convertBy (convertChecked limit) formula else throw .nesting

/-- Adds the clauses of a formula to those gathered, its closure being converted by way of
`way`. -/
def addVia (way : Term → ConvertM Unit) (formula : Term) : ConvertM Unit := do
  let before ← get
  let formula ← ofExcept (prepared before.config formula)
  report (.converting formula.universalClosure)
  way formula.universalClosure
  let total := (← get).clauses.length
  report (.produced (total - before.clauses.length) total)

/-- That is how formulas are added. -/
theorem addVia_convertWithin : addVia (convertWithin nestingLimit) = add := by
  funext t s
  have hget : ∀ f : Conversion → ConvertM Unit, (get >>= f) s = f s s := fun _ => rfl
  unfold addVia add prepared
  simp only [hget]
  split
  · rfl
  · rfl

/-! ### Checking only adds faults -/

/-- **Where the checked conversion comes to an end, the plain one does the same.** -/
theorem refines_convertChecked (limit : Nat) (t : Term) :
    Refines (convertChecked limit t) (convertWithin limit t) := by
  induction limit generalizing t with
  | zero =>
    intro s a s' hrun
    cases hrun
  | succ limit ih =>
    rw [convertChecked, convertWithin, convertBy_eq_convertVia, convertBy_eq_convertVia]
    split
    · exact .convertVia ih ih t
    · intro s a s' hrun
      cases hrun

theorem refines_addVia {way way' : Term → ConvertM Unit} (h : ∀ t, Refines (way t) (way' t))
    (t : Term) : Refines (addVia way t) (addVia way' t) := by
  unfold addVia
  refine .next _ fun before => .next _ fun u => .next _ fun _ => ?_
  exact (h _).bind fun _ => .refl _

/-! ### Checking adds no faults -/

variable {ρ : Relabeling} {t t' : Term}

/-- **The checked conversion of a well-formed formula mirrors the plain one**: the definitions hold
no quantifiers and keep the argument counts, and so they pass. -/
theorem mirrors_convertChecked (limit : Nat)
    (h : Corresponds (ρ.fn · = ·) (ρ.var · = ·) t t') (hk : t.KeepsArities)
    (ht' : t'.WellFormed) :
    Mirrors ρ (fun _ _ => True) (convertWithin limit t) (convertChecked limit t') := by
  induction limit generalizing t t' with
  | zero =>
    intro s₁ s₂ a s₁' _ hrun
    cases hrun
  | succ limit ih =>
    rw [convertWithin, convertChecked, if_pos ht']
    exact mirrors_convertBy
      (fun _ _ htwin => ih htwin.corresponds htwin.keepsArities htwin.wellFormed_right) h hk

/-- A well-formed term is prepared to a well-formed one. -/
theorem exists_prepared_wellFormed (config : Config) (ht : t.WellFormed) :
    ∃ u, prepared config t = .ok u ∧ u.WellFormed := by
  unfold prepared
  split
  · exact exists_evaluate_wellFormed ht (by simp)
  · exact ⟨t, rfl, ht⟩

/-- **A well-formed term is added without a fault**, the definitions included being well-formed,
whatever was gathered before, and whether or not a journal is kept. -/
theorem exists_add_checked (ht : t.WellFormed) (s : Conversion) :
    ∃ s', add t s = .ok () s' ∧ addVia (convertChecked nestingLimit) t s = .ok () s' := by
  have hmirrors : Mirrors .refl (fun _ _ => True) (addVia (convertWithin nestingLimit) t)
      (addVia (convertChecked nestingLimit) t) := by
    refine .bind_get fun s₁ s₂ halike => ?_
    obtain ⟨u, hu, huwf⟩ := exists_prepared_wellFormed s₁.config ht
    have hsame : prepared s₂.config t = prepared s₁.config t := by
      rw [prepared, prepared, halike.simplify]
    have hclosed := wellFormed_universalClosure huwf
    rw [hsame, hu]
    refine mirrors_reported _ _ hclosed.keepsArities ?_
    exact mirrors_convertChecked nestingLimit (.refl (fun _ => rfl) (fun _ => rfl) _)
      hclosed.keepsArities hclosed
  obtain ⟨s₁, hrun⟩ := exists_add ht.keepsArities s
  rw [← addVia_convertWithin] at hrun
  obtain ⟨_, s', hrun', -⟩ := hmirrors s s () s₁ ⟨rfl, fun _ => rfl, fun _ _ => rfl⟩ hrun
  refine ⟨s', ?_, hrun'⟩
  rw [← addVia_convertWithin]
  exact refines_addVia (refines_convertChecked nestingLimit) t s () s' hrun'

end ConvertM

/-- **On well-formed terms, nothing ends in a fault.** The negation normal form and the evaluation
of such a term are well-formed, and so are the definitions that are converted on the way when its
clauses are added to those of a conversion. -/
theorem total_of_wellFormed {t : Term} (ht : t.WellFormed) :
    (∀ sign, ∃ u, t.lowerNot sign = .ok u ∧ u.WellFormed) ∧
      (∀ σ : Substitution, (∀ key u, σ.get? key = some u → u.WellFormed) →
        ∃ u, t.evaluate σ = .ok u ∧ u.WellFormed) ∧
      (∀ s : Conversion, ∃ s', ConvertM.add t s = .ok () s' ∧
        ConvertM.addVia (ConvertM.convertChecked nestingLimit) t s = .ok () s') ∧
      ∀ config voc, ∃ cnf voc', convert config t voc = (.ok cnf, voc') := by
  refine ⟨fun sign => ?_, fun σ hσ => ?_, fun s => ?_, fun config voc => ?_⟩
  · have hs := ht.keepsArities.signed sign
    exact ⟨_, lowerNot_eq_nnf ht.keepsArities sign, hs.wellFormed_nnf ht⟩
  · exact exists_evaluate_wellFormed ht hσ
  · exact ConvertM.exists_add_checked ht s
  · obtain ⟨s, hrun, -⟩ := ConvertM.exists_add_checked ht (start config voc)
    exact ⟨_, _, convert_of_add hrun⟩

/-- The connectives and the quantifier inside the atom are given names, and so definitions are
converted. -/
theorem total_of_wellFormed_nestedExample :
    nestedExample.WellFormed ∧ (∃ u, nestedExample.lowerNot false = .ok u ∧ u.WellFormed) ∧
      (∃ u, nestedExample.evaluate (.ofList [(.const ⟨1, .declared⟩, nestedExample.neg)]) = .ok u ∧
        u.WellFormed) ∧
      (∃ s', ConvertM.add nestedExample (start { simplify := true } openVocabulary) = .ok () s' ∧
        ConvertM.addVia (ConvertM.convertChecked nestingLimit) nestedExample
          (start { simplify := true } openVocabulary) = .ok () s') ∧
      ∃ cnf voc', convert { simplify := true } nestedExample openVocabulary = (.ok cnf, voc') := by
  have hvalues : ∀ p ∈ (Bindings.ofList [(Term.const ⟨1, .declared⟩, nestedExample.neg)]).chain,
      p.2.WellFormed := by decide
  have ht : nestedExample.WellFormed := by decide
  obtain ⟨hnormal, hevaluated, hadded, hconverted⟩ := total_of_wellFormed ht
  exact ⟨ht, hnormal false, hevaluated _ fun key u h => hvalues _ (Bindings.mem_of_get? h), hadded _,
    hconverted _ _⟩

end ClauseForm
