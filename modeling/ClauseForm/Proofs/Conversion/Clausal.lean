import ClauseForm.Proofs.Conversion.Correct
import ClauseForm.Proofs.Conversion.Passes

/-!
# What clauses a conversion gathers

Whatever well-formed term is converted, be it with connectives and quantifiers inside
atoms, what comes out are clauses of literals without quantifiers
(`ClauseForm.convert_clausal`). For a formula of first-order logic, there are no more of
them than twenty for each of its nodes (`ClauseForm.convert_length_le`).
-/

namespace ClauseForm

open Conversion

/-! ### Clauses of literals -/

namespace Term

theorem keepsArities_universalClosure {t : Term} (h : t.KeepsArities) :
    t.universalClosure.KeepsArities := by
  unfold universalClosure
  split
  · exact h
  · exact keepsArities_quant.2 h

theorem bulk_nnf_universalClosure (t : Term) :
    (t.universalClosure.nnf true).bulk = (t.nnf true).bulk := by
  unfold universalClosure
  split
  · rfl
  · rw [nnf, bulk]

end Term

namespace ConvertM

open Term

/-- A term that keeps the argument counts is prepared to one that does, and that mentions no other
function symbol. -/
theorem exists_prepared_funs (config : Config) {t : Term} (h : t.KeepsArities) :
    ∃ t', prepared config t = .ok t' ∧ t'.KeepsArities ∧ ∀ f ∈ t'.funs, f ∈ t.funs := by
  unfold prepared
  split
  · exact exists_evaluate_funs h
  · exact ⟨t, rfl, h, fun _ hf => hf⟩

theorem exists_prepared_keepsArities (config : Config) {t : Term} (h : t.KeepsArities) :
    ∃ t', prepared config t = .ok t' ∧ t'.KeepsArities := by
  obtain ⟨t', ht, hk, -⟩ := exists_prepared_funs config h
  exact ⟨t', ht, hk⟩

/-- Three levels are enough for the definition of the name of any settled side. -/
theorem namesSides_settled (limit : Nat) :
    NamesSides false Settled Settled (convertWithin (limit + 3)) := by
  intro t atom s ht _ hta hs
  refine (ensures_convertVia_settledSide (namesSides_convertWithin literalClass_settled limit)
    (namesConjunctions_convertWithin literalClass_settled (limit + 1)) ht hta hs).mono ?_
  exact fun _ _ h => h.uncounted

/-- **Four levels are enough for any term** that keeps the argument counts, and only clausal clauses
are gathered. -/
theorem ensures_convertWithin_clausal (limit : Nat) {s : Conversion} {t : Term}
    (hk : t.KeepsArities) (hs : s.journal = none) :
    Ensures (convertWithin (limit + 4) t) s fun _ s' => Spends false 0 0 s s' := by
  have hp := literalClass_settled
  refine ensures_convertVia false hk hs fun {m s₁} hc hclear => ?_
  have hs₁ := hclear.quiet hs
  have hmixed : Mixed (fun t => t.QuantifierFree ∧ t.KeepsArities) m :=
    (hc.normal (hk.signed true).normal_nnf).mixed
      (fun _ h a ha => ⟨quantifierFree_node.1 h.1 a ha, (keepsArities_node.1 h.2).2 a ha⟩)
      hc.quantifierFree ⟨hc.quantifierFree, hc.keepsArities⟩
  refine (ensures_clausifyVia 0 hp (namesConjunctions_convertWithin hp (limit + 2)) hs₁
    ?_).mono fun _ s' h => hclear.trans h (by omega)
  refine (ensures_expandIffs_mixed hp (namesSides_settled limit) (fun h => hp.settled_of_junctive h)
    (fun {l s} hl hq hs => ?_) hmixed hs₁).mono fun m' s' h => ⟨h.1, h.2.uncounted⟩
  -- atoms of any kind may hold biconditionals
  refine (ensures_expandIffs_settles (namesSides_settled limit) hq.1 hq.2 hs).mono ?_
  exact fun l' s' h => ⟨⟨h.1.isLiteral hl, h.1.settled⟩, h.2⟩

end ConvertM

/-- **Every literal that comes out of a conversion is an atom or a negated atom, and holds no
quantifiers**, whatever well-formed term is converted, and with which choices. -/
theorem convert_clausal (config : Config) {t : Term} (ht : t.WellFormed) (voc : Vocabulary) :
    ∃ cnf voc', convert config t voc = (.ok cnf, voc') ∧
      ∀ c ∈ cnf.clauses, ∀ l ∈ c.literals, l.isLiteral = true ∧ l.QuantifierFree := by
  obtain ⟨t', hprepared, hk⟩ := ConvertM.exists_prepared_keepsArities config ht.keepsArities
  obtain ⟨s, hrun, hspends⟩ := exists_convert_of hprepared
    ((ConvertM.ensures_convertWithin_clausal 0 (s := start config voc)
      (Term.keepsArities_universalClosure hk) rfl).mono fun _ _ h => ⟨h.quiet rfl, h⟩)
  refine ⟨_, _, hrun, fun c hc => ?_⟩
  rcases hspends.clausal c hc with hc | hc
  · simp [start] at hc
  · exact hc

/-- The term `p = (q <=> ![X]: (r(X) <~> (p | q)))`, in which connectives and a quantifier stand
inside an atom. -/
def nestedExample : Term :=
  .eq (.const ⟨0, .declared⟩) (.iff (.const ⟨1, .declared⟩) (.quant .all [⟨0⟩]
    (.node .xor [.call ⟨2, .declared⟩ [.var ⟨0⟩],
      .disj [.const ⟨0, .declared⟩, .const ⟨1, .declared⟩]])))

theorem convert_clausal_nestedExample :
    nestedExample.WellFormed ∧
      ∃ cnf voc', convert { simplify := true } nestedExample openVocabulary = (.ok cnf, voc') ∧
        ∀ c ∈ cnf.clauses, ∀ l ∈ c.literals, l.isLiteral = true ∧ l.QuantifierFree :=
  ⟨by decide, convert_clausal { simplify := true } (by decide) openVocabulary⟩

/-! ### The number of clauses -/

/-- **There are at most twenty clauses for each node of a formula**, those of definitions included,
however its connectives are nested. -/
theorem convert_length_le {t : Term} (hf : t.isFormula = true) (voc : Vocabulary) :
    ∃ cnf voc', convert {} t voc = (.ok cnf, voc') ∧
      cnf.clauses.length ≤ 20 * t.formulaNodes := by
  have hp := Term.literalClass_settledFormula
  obtain ⟨s, hrun, hspends⟩ := exists_convert_of
    (show ConvertM.prepared {} t = .ok t from rfl)
    ((ConvertM.ensures_convertVia_formula true
      (ConvertM.namesSides_convertWithin hp 1) (ConvertM.namesConjunctions_convertWithin hp 2)
      (Term.isFormula_universalClosure hf) (s := start {} voc) rfl).mono
        fun _ _ h => ⟨h.quiet rfl, h⟩)
  refine ⟨_, _, hrun, ?_⟩
  calc s.clauses.length ≤ 19 * (t.universalClosure.nnf true).bulk := by
        simpa [start] using hspends.length rfl
    _ = 19 * (t.nnf true).bulk := by rw [Term.bulk_nnf_universalClosure]
    _ ≤ 19 * t.formulaNodes :=
        Nat.mul_le_mul_left 19 ((Term.KeepsArities.of_isFormula hf).signed true).bulk_nnf_le
    _ ≤ 20 * t.formulaNodes := Nat.mul_le_mul_right _ (by decide)

theorem convert_length_le_openExample :
    openExample.isFormula = true ∧
      ∃ cnf voc', convert {} openExample openVocabulary = (.ok cnf, voc') ∧
        cnf.clauses.length ≤ 20 * openExample.formulaNodes :=
  ⟨by decide, convert_length_le (by decide) openVocabulary⟩

end ClauseForm
