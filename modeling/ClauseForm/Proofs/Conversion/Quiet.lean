import ClauseForm.Proofs.Conversion.Introducing
import ClauseForm.Proofs.Conversion.Programs

/-!
# Conversions without their journals

Whether a journal is kept makes no difference to a conversion: what is composed of primitive
programs does the same without one (`ClauseForm.ConvertM.Composed.quiet`), since each of these
does. So the journal that is kept when a formula is added is that of every run that adds this
formula, also of one of which none is kept (`ClauseForm.ConvertM.exists_add_watched`).
-/

namespace ClauseForm

/-- A conversion with a journal in which there are no entries yet. -/
def Conversion.watched (s : Conversion) : Conversion :=
  { s with journal := some [] }

namespace ConvertM

open Conversion

variable {α : Type} {a : α} {t : Term} {s s' : Conversion}

/-! ### Primitive programs -/

theorem report_quiet {e : Event} {a : Unit} (h : report e s = .ok a s') :
    report e s.quiet = .ok () s'.quiet := by
  rw [eq_of_report h]
  exact report_of_quiet rfl e

theorem gatherClause_quiet {c : Clause} {a : Unit} (h : gatherClause c s = .ok a s') :
    gatherClause c s.quiet = .ok () s'.quiet := by
  unfold gatherClause at h ⊢
  obtain ⟨_, _, hget, h⟩ := bind_eq_ok.1 h
  cases hget
  refine bind_eq_ok.2 ⟨_, _, rfl, ?_⟩
  rw [show s.quiet.config = s.config from rfl]
  split at h
  · rename_i hsimplify
    rw [if_pos hsimplify]
    obtain ⟨b, _, htautology, h⟩ := bind_eq_ok.1 h
    obtain ⟨hb, rfl⟩ := ofExcept_eq_ok.1 htautology
    refine bind_eq_ok.2 ⟨b, _, ofExcept_eq_ok.2 ⟨hb, rfl⟩, ?_⟩
    cases b with
    | true =>
      cases h
      rfl
    | false =>
      obtain ⟨d, _, hclean, h⟩ := bind_eq_ok.1 h
      obtain ⟨hd, rfl⟩ := ofExcept_eq_ok.1 hclean
      cases h
      exact bind_eq_ok.2 ⟨d, _, ofExcept_eq_ok.2 ⟨hd, rfl⟩, rfl⟩
  · rename_i hsimplify
    rw [if_neg hsimplify]
    cases h
    rfl

/-! ### Composed programs -/

/-- **What is composed of primitive programs does the same without a journal.** -/
theorem Composed.quiet {x : ConvertM α} (h : Composed x) (hrun : x s = .ok a s') :
    x s.quiet = .ok a s'.quiet := by
  induction h generalizing s s' with
  | ofExcept x =>
    obtain ⟨hx, rfl⟩ := ofExcept_eq_ok.1 hrun
    exact ofExcept_eq_ok.2 ⟨hx, rfl⟩
  | report e => exact report_quiet hrun
  | freshLike x | newSkolem | newDefinition =>
    cases hrun
    rfl
  | gatherClause c => exact gatherClause_quiet hrun
  | bind _ _ ih ihf =>
    obtain ⟨b, s₁, hx, hf⟩ := bind_eq_ok.1 hrun
    exact bind_eq_ok.2 ⟨b, _, ih hx, ihf b hf⟩

/-- So does what adds a formula. -/
theorem add_quiet (hk : t.KeepsArities) (h : add t s = .ok () s') :
    add t s.quiet = .ok () s'.quiet := by
  obtain ⟨u, hu, -⟩ := exists_prepared_keepsArities s.config hk
  rw [add_eq_addClosed hu] at h
  rw [add_eq_addClosed (s := s.quiet) hu]
  obtain ⟨_, s₁, hfirst, h⟩ := bind_eq_ok.1 h
  obtain ⟨_, s₂, hconvert, h⟩ := bind_eq_ok.1 h
  obtain ⟨_, _, hget, hlast⟩ := bind_eq_ok.1 h
  cases hget
  refine bind_eq_ok.2 ⟨(), s₁.quiet, report_quiet hfirst, ?_⟩
  refine bind_eq_ok.2 ⟨(), s₂.quiet, (composed_convertWithin nestingLimit _).quiet hconvert, ?_⟩
  exact bind_eq_ok.2 ⟨s₂.quiet, s₂.quiet, rfl, report_quiet hlast⟩

/-- **A run that adds a formula is the same if it is watched**, but for the journal. -/
theorem exists_add_watched (hk : t.KeepsArities) (h : add t s = .ok () s') :
    ∃ journal, add t s.watched = .ok () { s' with journal := journal } := by
  obtain ⟨s₁, hwatched⟩ := exists_add hk s.watched
  have hquiet := add_quiet hk h
  have hquiet₁ : add t s.quiet = .ok () s₁.quiet := add_quiet (s := s.watched) hk hwatched
  rw [hquiet] at hquiet₁
  injection hquiet₁ with _ heq
  have hs₁ : s₁ = { s'.quiet with journal := s₁.journal } := by
    rw [heq]
    rfl
  exact ⟨s₁.journal, hwatched.trans (congrArg (EStateM.Result.ok ()) hs₁)⟩

end ConvertM

end ClauseForm
