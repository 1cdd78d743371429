import ClauseForm.Proofs.Conversion.Bulk
import ClauseForm.Proofs.Conversion.Run

/-!
# Clauses on a budget

What a step of a conversion gathers, told without a meaning: all clauses that it adds
are *clausal* (`ClauseForm.Clause.Clausal`), and, if they are counted, they cost no more
than a budget given to the step, of which some number is left
(`ClauseForm.Conversion.Spends`). What is left over from one step pays for the next
one (`ClauseForm.Conversion.Spends.trans`), so that a step may save for formulas whose
clauses are gathered later.

Nothing is asked of the symbols that a formula is made of. All that a state has to
bring along is that no journal is kept.
-/

namespace ClauseForm

/-- Every literal of the clause is an atom or a negated atom, and holds no quantifiers. -/
def Clause.Clausal (c : Clause) : Prop :=
  ∀ l ∈ c.literals, l.isLiteral = true ∧ l.QuantifierFree

namespace Conversion

/-! ### What a step gathers -/

/-- From one state to a later one, only clausal clauses were gathered. If they are counted, they are
paid for by `budget`, of which `rest` is left. -/
structure Spends (counted : Bool) (budget rest : Nat) (s s' : Conversion) : Prop where
  journal : s'.journal = s.journal
  clausal : ∀ c ∈ s'.clauses, c ∈ s.clauses ∨ c.Clausal
  length : counted = true → s'.clauses.length + rest ≤ s.clauses.length + budget

namespace Spends

variable {counted : Bool} {budget budget' rest rest' b r : Nat} {s s' s'' : Conversion}

/-- A step that gathers nothing. -/
theorem of_eq (hj : s'.journal = s.journal) (hc : s'.clauses = s.clauses) (h : rest ≤ budget) :
    Spends counted budget rest s s' :=
  ⟨hj, fun _ hmem => Or.inl (hc ▸ hmem), fun _ => hc ▸ Nat.add_le_add_left h _⟩

theorem refl (h : rest ≤ budget) (s : Conversion) : Spends counted budget rest s s :=
  of_eq rfl rfl h

/-- One step after the other, if the two together keep to a budget. -/
theorem trans (h : Spends counted b r s s') (h' : Spends counted budget' rest' s' s'')
    (hle : b + budget' + rest ≤ budget + r + rest') : Spends counted budget rest s s'' := by
  refine ⟨h'.journal.trans h.journal, fun c hc => ?_, fun hcounted => ?_⟩
  · rcases h'.clausal c hc with hc | hc
    · exact h.clausal c hc
    · exact Or.inr hc
  · have hfirst := h.length hcounted
    have hsecond := h'.length hcounted
    omega

/-- More of a budget, or less left of it. -/
theorem mono (h : Spends counted b r s s') (hle : b + rest ≤ budget + r) :
    Spends counted budget rest s s' :=
  h.trans (refl (Nat.le_refl 0) s') (by omega)

/-- Where clauses are not counted, a budget means nothing. -/
theorem uncounted (h : Spends false b r s s') : Spends false budget rest s s' :=
  ⟨h.journal, h.clausal, fun hcounted => absurd hcounted Bool.false_ne_true⟩

/-- No journal is kept. -/
theorem quiet (h : Spends counted budget rest s s') (hs : s.journal = none) : s'.journal = none :=
  h.journal.trans hs

end Spends

end Conversion

namespace ConvertM.Ensures

open Conversion

variable {counted : Bool} {s : Conversion}

/-- Going through formulas one after the other, each on a budget of its own. -/
theorem mapM_spends {f : Term → ConvertM Term} {Q : Term → Term → Prop} {b r : Term → Nat}
    {ts : List Term} (hs : s.journal = none)
    (h : ∀ t ∈ ts, ∀ s : Conversion, s.journal = none →
      Ensures (f t) s fun t' s' => Q t t' ∧ Spends counted (b t) (r t') s s') :
    Ensures (ts.mapM f) s fun ts' s' =>
      List.Forall₂ Q ts ts' ∧ Spends counted (Term.total b ts) (Term.total r ts') s s' := by
  induction ts generalizing s with
  | nil => exact pure ⟨.nil, .refl (Nat.le_refl 0) s⟩
  | cons t ts ih =>
    rw [List.forall_mem_cons] at h
    rw [List.mapM_cons]
    refine bind (h.1 s hs) ?_
    rintro t' s₁ ⟨hd, hspends⟩
    refine bind (ih (hspends.quiet hs) h.2) ?_
    rintro ts' s₂ ⟨htl, hrest⟩
    exact pure ⟨.cons hd htl, hspends.trans hrest (by simp; omega)⟩

end ConvertM.Ensures

end ClauseForm
