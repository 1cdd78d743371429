import ClauseForm.Proofs.Conversion.Levels
import ClauseForm.Proofs.Evaluation.Meaning

/-!
# The correctness of the conversion

The clauses of a formula whose biconditionals have no quantifiers in their sides
say what its universal closure says, up to the meaning of the symbols that the
conversion minted (`ClauseForm.convert_correct`).

Where a quantifier stands in a side, it stands there positively and negatively,
but is taken away with one polarity. The stages behind do their work all the same:
the conversion is right exactly where taking the quantifiers away was
(`ClauseForm.convert_correct_iff_matrix`), and there are formulas where it was not
(`ClauseForm.convert_quantified_side`).
-/

universe u

namespace ClauseForm

open Interpretation Conversion

/-! ### Universal closures -/

namespace Term

variable {t : Term}

theorem isFormula_universalClosure (h : t.isFormula = true) :
    t.universalClosure.isFormula = true := by
  unfold universalClosure
  split
  · exact h
  · exact isFormula_quant.2 h

theorem funs_universalClosure (t : Term) : t.universalClosure.funs = t.funs := by
  unfold universalClosure
  split
  · rfl
  · exact funs_quant ..

theorem openSides_universalClosure (h : t.OpenSides) : t.universalClosure.OpenSides := by
  unfold universalClosure
  split
  · exact h
  · exact openSides_quant.2 h

end Term

/-! ### Adding a formula to a conversion -/

namespace ConvertM

/-- A step has one outcome, whichever of its properties is looked at. -/
theorem Ensures.forall {α : Type} {ι : Type*} [Nonempty ι] {x : ConvertM α} {s : Conversion}
    {P : ι → α → Conversion → Prop} (h : ∀ i, Ensures x s (P i)) :
    Ensures x s fun a s' => ∀ i, P i a s' := by
  obtain ⟨a, s', hrun, -⟩ := h (Classical.arbitrary ι)
  refine ⟨a, s', hrun, fun i => ?_⟩
  obtain ⟨b, s'', hrun', hi⟩ := h i
  obtain ⟨rfl, rfl⟩ : a = b ∧ s' = s'' := by simpa [hrun] using hrun'
  exact hi

/-- The formula whose closure is converted: the one given, or what it evaluates to. -/
def prepared (config : Config) (t : Term) : Except Fault Term :=
  if config.simplify then t.evaluate .empty else .ok t

theorem exists_prepared (config : Config) {t : Term} (h : t.isFormula = true) :
    ∃ t', prepared config t = .ok t' ∧ Term.Evaluated.{u} t t' := by
  unfold prepared
  split
  · exact Term.exists_evaluate h
  · exact ⟨t, rfl, .refl h⟩

/-- Adding a formula to a conversion of which no journal is kept is converting the closure of what
it is prepared to. -/
theorem ensures_add_of {s : Conversion} {t t' : Term} {P : Conversion → Prop}
    (hs : s.journal = none) (ht : prepared s.config t = .ok t')
    (h : Ensures (convertWithin nestingLimit t'.universalClosure) s fun _ s' =>
      s'.journal = none ∧ P s') : Ensures (add t) s fun _ s' => P s' := by
  have hclosed : ∀ before, Ensures (do
      report (.converting t'.universalClosure)
      convertWithin nestingLimit t'.universalClosure
      let total := (← get).clauses.length
      report (.produced (total - before) total)) s fun _ s' => P s' := by
    intro before
    refine .bind_report _ hs (h.bind ?_)
    rintro _ s' ⟨hs', hP⟩
    refine .bind_get (Ensures.mono (.report _ hs') ?_)
    rintro _ _ rfl
    exact hP
  unfold prepared at ht
  unfold add
  -- evaluated first or not, the rest is the same
  refine .bind_get ?_
  refine .bind_get ?_
  split at ht
  · rename_i hsimplify
    rw [if_pos hsimplify]
    exact .bind_ofExcept ht (hclosed _)
  · rename_i hsimplify
    rw [if_neg hsimplify, pure_bind, Except.ok.inj ht]
    exact hclosed _

end ConvertM

/-- A formula is converted without a fault if the closure of what it is prepared to is. -/
theorem exists_convert_of {config : Config} {t t' : Term} {voc : Vocabulary}
    {P : Conversion → Prop} (ht : ConvertM.prepared config t = .ok t')
    (h : ConvertM.Ensures (convertWithin nestingLimit t'.universalClosure) (start config voc)
      fun _ s' => s'.journal = none ∧ P s') :
    ∃ s', convert config t voc = (.ok ⟨s'.clauses⟩, s'.vocabulary) ∧ P s' := by
  obtain ⟨_, s', hrun, hP⟩ := ConvertM.ensures_add_of (s := start config voc) rfl ht h
  refine ⟨s', ?_, hP⟩
  rw [convert, EStateM.run, hrun]
  rfl

/-- What is known of the outcome of a conversion, whatever the domain. -/
theorem exists_convert (config : Config) {t t' : Term} {voc : Vocabulary}
    (ht : ConvertM.prepared config t = .ok t') (hf : t'.isFormula = true) (hw : t'.Within voc) :
    ∃ cnf voc' m s₁ s', convert config t voc = (.ok cnf, voc') ∧
      matrix (t'.universalClosure.nnf true) .empty (start config voc) = .ok m s₁ ∧
      s'.clauses = cnf.clauses ∧ s'.vocabulary = voc' ∧
      ∀ D : Type u, Skolemizes D .empty [t'.universalClosure.nnf true] [m] (start config voc) s₁ ∧
        Asserts D m s₁ s' := by
  have hw' : t'.universalClosure.Within voc := fun f hfun =>
    hw f (t'.funs_universalClosure ▸ hfun)
  obtain ⟨s', hrun, hall⟩ := exists_convert_of ht ((ConvertM.Ensures.forall fun D : Type u =>
    ConvertM.ensures_convertWithin D 1 (ready_start config voc)
      (Term.isFormula_universalClosure hf) hw' t'.free_universalClosure).mono fun _ s' h => by
        obtain ⟨m, s₁, -, -, hasserts⟩ := h PUnit
        exact ⟨hasserts.ready.journal, h⟩)
  obtain ⟨m, s₁, hmatrix, -⟩ := hall PUnit
  refine ⟨⟨s'.clauses⟩, s'.vocabulary, m, s₁, s', hrun, hmatrix, rfl, rfl, fun D => ?_⟩
  obtain ⟨m', s₂, hmatrix', hD⟩ := hall D
  obtain ⟨rfl, rfl⟩ : m = m' ∧ s₁ = s₂ := by simpa [hmatrix] using hmatrix'
  exact hD

/-! ### Open sides -/

/-- **The conversion is correct** for every formula whose biconditionals have no quantifiers in
their sides, with simplification or without. In every standard interpretation that satisfies the
clauses, the universal closure of the formula is true; and every standard interpretation in which it
is true can be changed, on the symbols that this conversion minted alone, into one that satisfies
the clauses. -/
theorem convert_correct (config : Config) {t : Term} {voc : Vocabulary} (hf : t.isFormula = true)
    (hw : t.Within voc) (ho : t.OpenSides) :
    ∃ cnf voc', convert config t voc = (.ok cnf, voc') ∧
      ∀ {D : Type u} (I : Interpretation D), I.Standard →
        (I.Satisfies cnf.clauses → I.Models t.universalClosure) ∧
        (I.Models t.universalClosure → ∃ J : Interpretation D, J.Standard ∧
          I.AgreesOff (voc.Minted voc') J ∧ J.Satisfies cnf.clauses) := by
  obtain ⟨t', ht, he⟩ := ConvertM.exists_prepared.{u} config hf
  have hw' : t'.Within voc := fun f hfun => hw f (he.funs f hfun)
  obtain ⟨cnf, voc', m, s₁, s', hrun, -, hclauses, rfl, hall⟩ :=
    exists_convert config ht he.isFormula hw'
  refine ⟨cnf, s'.vocabulary, hrun, fun {D} I hI => ?_⟩
  have hclosure := Term.isFormula_universalClosure he.isFormula
  have hsigned := (Term.KeepsArities.of_isFormula hclosure).signed
    true
  have hmono := hsigned.monotone_nnf (Term.isFormula_universalClosure he.isFormula)
    (Term.openSides_universalClosure (he.openSides ho))
  have hasserts : Asserts D _ _ s' := (hall D).1.asserts (ready_start config voc) hmono (hall D).2
  have hsame : I.Models (t'.universalClosure.nnf true) ↔ I.Models t.universalClosure := by
    have hnnf : I.Models (t'.universalClosure.nnf true) ↔ I.Models t'.universalClosure :=
      forall_congr' fun v => (hsigned.holds_nnf v).trans (iff_true_right rfl)
    rw [hnnf, models_universalClosure, models_universalClosure]
    exact forall_congr' fun v => he.holds hI v
  rw [← hsame, ← hclauses]
  refine ⟨hasserts.sound I, fun h => ?_⟩
  obtain ⟨J, hIJ, hJ⟩ := hasserts.complete I (by simp [Satisfies, start]) h
  exact ⟨J, hIJ.standard hI, hIJ, hJ⟩

/-- The formula `![X]: ?[Y]: (r(X, Y) | (p <=> (p & q)))`, which needs a Skolem function and names
for a side and for conjunctions. -/
def openExample : Term :=
  .quant .all [⟨0⟩] (.quant .exist [⟨1⟩] (.disj [.call ⟨2, .declared⟩ [.var ⟨0⟩, .var ⟨1⟩],
    .iff (.const ⟨0, .declared⟩) (.conj [.const ⟨0, .declared⟩, .const ⟨1, .declared⟩])]))

/-- The vocabulary of `ClauseForm.openExample`. -/
def openVocabulary : Vocabulary :=
  { vars := #[some "X", some "Y"], funs := #[some "p", some "q", some "r"] }

theorem convert_correct_openExample :
    openExample.isFormula = true ∧ openExample.Within openVocabulary ∧ openExample.OpenSides ∧
      ∃ cnf voc', convert { simplify := true } openExample openVocabulary = (.ok cnf, voc') ∧
        ∀ {D : Type} (I : Interpretation D), I.Standard →
          (I.Satisfies cnf.clauses → I.Models openExample.universalClosure) ∧
          (I.Models openExample.universalClosure → ∃ J : Interpretation D, J.Standard ∧
            I.AgreesOff (openVocabulary.Minted voc') J ∧ J.Satisfies cnf.clauses) :=
  ⟨by decide, by decide, by decide,
    convert_correct.{0} { simplify := true } (by decide) (by decide) (by decide)⟩

/-! ### Quantifiers in the sides of biconditionals -/

/-- **The conversion of any formula is right exactly where its matrix is.** With the default
choices, the clauses imply the universal closure exactly if the matrix does, and can be made true
where the closure is exactly if the matrix can; and the matrix is what taking the quantifiers away
leaves of the normal form. -/
theorem convert_correct_iff_matrix {t : Term} {voc : Vocabulary} (hf : t.isFormula = true)
    (hw : t.Within voc) :
    ∃ cnf voc' m s, convert {} t voc = (.ok cnf, voc') ∧
      matrix (t.universalClosure.nnf true) .empty (start {} voc) = .ok m s ∧ ∀ D : Type u,
        ((∀ I : Interpretation D, I.Satisfies cnf.clauses → I.Models t.universalClosure) ↔
          ∀ I : Interpretation D, I.Models m → I.Models t.universalClosure) ∧
        ((∀ I : Interpretation D, I.Models t.universalClosure →
            ∃ J, I.AgreesOff (voc.Minted voc') J ∧ J.Satisfies cnf.clauses) ↔
          ∀ I : Interpretation D, I.Models t.universalClosure →
            ∃ J, I.AgreesOff (voc.Minted voc') J ∧ J.Models m) := by
  obtain ⟨cnf, voc', m, s₁, s', hrun, hmatrix, hclauses, rfl, hall⟩ :=
    exists_convert {} (show ConvertM.prepared {} t = .ok t from rfl) hf hw
  refine ⟨cnf, s'.vocabulary, m, s₁, hrun, hmatrix, fun D => ?_⟩
  obtain ⟨hsk, hasserts⟩ := hall D
  have hstart : s₁.clauses = [] := hsk.clauses
  -- every interpretation in which the matrix is true satisfies the clauses after a change
  have hforth : ∀ I : Interpretation D, I.Models m →
      ∃ J, I.AgreesOff (voc.Minted s'.vocabulary) J ∧ J.Satisfies cnf.clauses := by
    intro I hm
    obtain ⟨J, hIJ, hJ⟩ := hasserts.complete I (by simp [hstart, Satisfies]) hm
    exact ⟨J, hIJ.mono fun f hf => hf.mono hsk.grows.funs (Nat.le_refl _), hclauses ▸ hJ⟩
  have hback : ∀ I : Interpretation D, I.Satisfies cnf.clauses → I.Models m := fun I hI =>
    hasserts.sound I (hclauses ▸ hI)
  have hclosure : t.universalClosure.Within voc := fun f hfun =>
    hw f (t.funs_universalClosure ▸ hfun)
  refine ⟨⟨fun h I hm => ?_, fun h I hI => h I (hback I hI)⟩, ⟨fun h I ht => ?_, fun h I ht => ?_⟩⟩
  · obtain ⟨J, hIJ, hJ⟩ := hforth I hm
    exact fun v => (hIJ.holds_within hclosure v).1 (h J hJ v)
  · obtain ⟨J, hIJ, hJ⟩ := h I ht
    exact ⟨J, hIJ, hback J hJ⟩
  · obtain ⟨J, hIJ, hJ⟩ := h I ht
    obtain ⟨K, hJK, hK⟩ := hforth J hJ
    exact ⟨K, hIJ.trans hJK, hK⟩

/-- The formula `p <=> ![X]: q(X)`. -/
def quantifiedSide : Term :=
  .iff (.const ⟨0, .declared⟩) (.quant .all [⟨0⟩] (.call ⟨1, .declared⟩ [.var ⟨0⟩]))

/-- The vocabulary of `ClauseForm.quantifiedSide`. -/
def sideVocabulary : Vocabulary :=
  { vars := #[some "X"], funs := #[some "p", some "q"] }

theorem convert_correct_iff_matrix_quantifiedSide :
    quantifiedSide.isFormula = true ∧ quantifiedSide.Within sideVocabulary ∧
      ∃ cnf voc' m s, convert {} quantifiedSide sideVocabulary = (.ok cnf, voc') ∧
        matrix (quantifiedSide.universalClosure.nnf true) .empty (start {} sideVocabulary) =
          .ok m s ∧ ∀ D : Type,
        ((∀ I : Interpretation D, I.Satisfies cnf.clauses →
            I.Models quantifiedSide.universalClosure) ↔
          ∀ I : Interpretation D, I.Models m → I.Models quantifiedSide.universalClosure) ∧
        ((∀ I : Interpretation D, I.Models quantifiedSide.universalClosure →
            ∃ J, I.AgreesOff (sideVocabulary.Minted voc') J ∧ J.Satisfies cnf.clauses) ↔
          ∀ I : Interpretation D, I.Models quantifiedSide.universalClosure →
            ∃ J, I.AgreesOff (sideVocabulary.Minted voc') J ∧ J.Models m) :=
  ⟨by decide, by decide, convert_correct_iff_matrix.{0} (by decide) (by decide)⟩

/-- **Not every formula is converted rightly.** With two elements, of which `q` holds of one, and
`p` false, the formula `p <=> ![X]: q(X)` is true; but its clauses say that `p` is equivalent to
`q(X)` for every `X`, and no symbol minted on the way can mend that. -/
theorem convert_quantified_side :
    quantifiedSide.isFormula = true ∧ quantifiedSide.Within sideVocabulary ∧
      ¬quantifiedSide.OpenSides ∧
      ∃ cnf voc', convert {} quantifiedSide sideVocabulary = (.ok cnf, voc') ∧
        ¬∀ I : Interpretation Bool, I.Models quantifiedSide.universalClosure →
          ∃ J, I.AgreesOff (sideVocabulary.Minted voc') J ∧ J.Satisfies cnf.clauses := by
  refine ⟨by decide, by decide, by decide, ?_⟩
  obtain ⟨cnf, voc', m, s₁, s', hrun, hmatrix, hclauses, rfl, hall⟩ :=
    exists_convert.{0} {} (show ConvertM.prepared {} quantifiedSide = .ok quantifiedSide from rfl)
      (by decide) (show quantifiedSide.Within sideVocabulary by decide)
  refine ⟨cnf, s'.vocabulary, hrun, fun h => ?_⟩
  have hm : m = .iff (.const ⟨0, .declared⟩) (.call ⟨1, .declared⟩ [.var ⟨1⟩]) := by
    have hrun : matrix (quantifiedSide.universalClosure.nnf true) .empty (start {} sideVocabulary) =
        .ok (.iff (.const ⟨0, .declared⟩) (.call ⟨1, .declared⟩ [.var ⟨1⟩]))
          { start {} sideVocabulary with
            vocabulary := { sideVocabulary with vars := #[some "X", some "X"] } } := by
      rfl
    rw [hrun] at hmatrix
    exact (EStateM.Result.ok.inj hmatrix).1.symm
  -- the truth value of `q` is that of its argument
  let I : Interpretation Bool :=
    { fn := fun _ _ => true
      rel := fun f ds => f.id = 1 ∧ ds = [true]
      value := fun _ => true
      compares := fun _ _ _ => False }
  have hI : I.Models quantifiedSide.universalClosure := by
    rw [models_universalClosure]
    intro v
    rw [quantifiedSide, Term.iff, holds_iff, holds_const, holds_all]
    refine iff_of_false (by simp [I]) fun hall => ?_
    have hq := hall (fun x => if x = ⟨0⟩ then false else v x) fun x hx => if_neg (by simpa using hx)
    simp [I] at hq
  obtain ⟨J, hIJ, hJ⟩ := h I hI
  have hJm : J.Models m := (hall Bool).2.sound J (hclauses ▸ hJ)
  have hmint : ∀ f : FunSym, f.id < 2 → ¬sideVocabulary.Minted s'.vocabulary f := fun f hf =>
    Vocabulary.not_minted_of_lt hf
  have hp := hIJ.rel ⟨0, .declared⟩ (hmint _ (by decide))
  have hq := hIJ.rel ⟨1, .declared⟩ (hmint _ (by decide))
  have hfalse := hJm fun _ => true
  rw [hm, Term.iff, holds_iff, holds_const, holds_call, hp, hq] at hfalse
  simp [I] at hfalse

end ClauseForm
