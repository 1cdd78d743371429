import ClauseForm.Proofs.Conversion.Passes

/-!
# Conversions within conversions

The formulas that go their own way during a conversion are converted themselves,
and it has to be seen that this comes to an end. The definition of a conjunction's
name needs no name (`ClauseForm.ConvertM.ensures_convertBy_conjunction`); the
definition of a side's name needs names for conjunctions alone
(`ClauseForm.ConvertM.ensures_convertBy_side`); and a formula needs both kinds. So
three levels are enough for a formula, whatever it is, and what its conversion
asserts is its matrix (`ClauseForm.ConvertM.ensures_convertWithin`).
-/

universe u

namespace ClauseForm

open Interpretation Conversion

namespace ConvertM

variable {D : Type u} {define side conj : Term → ConvertM Unit} {s : Conversion} {t m : Term}

/-- The normal form of a formula says the same and is made of the same symbols. -/
theorem rewrites_nnf {exact : Bool} (hs : s.Ready) (hf : t.isFormula = true)
    (hw : t.Within s.vocabulary) : Rewrites D exact [t] [t.nnf true] s s := by
  have hsigned := (Term.KeepsArities.of_isFormula hf).signed true
  refine .of_iff hs (fun f hfun => hw f (hsigned.funs_nnf ▸ hfun)) fun I v => ?_
  rw [hsigned.holds_nnf, iff_true_right rfl]

/-! ### What the clauses of a matrix assert -/

/-- **The clauses of a matrix assert it**, if the definitions that it needs are asserted. -/
theorem ensures_clausifyVia_asserts (hs : s.Ready) (hm : IsMatrix s.vocabulary m)
    (hside : Defines D side Term.DefinesSide) (hconj : Defines D conj Term.DefinesConjunction) :
    Ensures (clausifyVia side conj m) s fun _ s' => Asserts D m s s' := by
  unfold clausifyVia
  refine (ensures_expandIffs hm.normal hm.isFormula hm.quantifierFree hside hs hm.within).bind ?_
  rintro m' s₁ ⟨hexpand, hj⟩
  refine (ensures_raiseAnds hj hconj hexpand.ready (hexpand.within m' (by simp))).bind ?_
  rintro c s₂ ⟨hraise, hr⟩
  refine .bind_report _ hraise.ready.journal ?_
  refine (ensures_gatherClauses (D := D) hr hraise.ready (hraise.within c (by simp))).mono
    fun _ s₃ hgather => ?_
  exact hexpand.asserts (hraise.asserts hgather)

/-! ### The three levels -/

/-- **The definition of a conjunction's name needs no name.** -/
theorem ensures_convertBy_conjunction (define : Term → ConvertM Unit) (hs : s.Ready)
    (hw : t.Within s.vocabulary) (ht : t.DefinesConjunction) :
    Ensures (convertBy define t) s fun _ s' => Asserts D t s s' := by
  obtain ⟨c, atom, hand, hc, ha, haf, rfl⟩ := ht
  have hpa : atom.SettledFormula := .of_isLiteral (Term.isLiteral_literal ha true) haf
  rw [convertBy_eq_convertVia]
  refine ensures_convertVia_distribute Term.literalClass_settledFormula define define hand
    (hc.mono .of_isLiteral) ha hpa hs.journal fun i _ hr => ?_
  have hws : ∀ a ∈ [atom.neg, c], a.Within s.vocabulary := by
    obtain ⟨hatom, hc⟩ := forall_mem_pair.1 (Term.within_node.1 hw)
    exact forall_mem_pair.2 ⟨Term.within_node.2 (by simpa using hatom), hc⟩
  -- distributed or not, the disjunction says what the implication says
  have hrewrites : Rewrites D false [.imp atom c] [.distribute [atom.neg, c] i] s s := by
    refine .of_iff hs (within_distribute i hws) fun I v => ?_
    rw [holds_distribute, Term.disj, holds_disj, Term.imp, holds_implies]
    simp [Term.neg, imp_iff_not_or]
  refine (ensures_gatherClauses (D := D) hr hs (hrewrites.within _ (by simp))).mono
    fun _ s' hgather => ?_
  exact hrewrites.asserts hgather

/-- **The definition of a side's name needs names for conjunctions alone.** -/
theorem ensures_convertBy_side (hconj : Defines D define Term.DefinesConjunction) (hs : s.Ready)
    (hw : t.Within s.vocabulary) (ht : t.DefinesSide) :
    Ensures (convertBy define t) s fun _ s' => Asserts D t s s' := by
  obtain ⟨side, atom, hj, ha, haf, rfl⟩ := ht
  have hatom : Term.Junctive (·.isFormula = true) atom :=
    .literal (Term.isLiteral_literal ha true) haf
  have hf := Term.isFormula_sideDefinition hj.isFormula haf
  have hq := Term.quantifierFree_sideDefinition hj.quantifierFree hatom.quantifierFree
  have hjunctive := Term.junctive_sideDefinition hj.nnf hatom.nnf
  have hrewrites : Rewrites D false _ _ s s := rewrites_nnf hs hf hw
  rw [convertBy_eq_convertVia]
  refine ensures_convertVia_open (.of_isFormula hf) hq hs.journal ?_
  -- there are no biconditionals left whose sides could be named
  rw [clausifyVia, expandIffs_eq_pure define hjunctive.plain.iffFree, pure_bind]
  refine (ensures_raiseAnds hjunctive hconj hs (hrewrites.within _ (by simp))).bind ?_
  rintro c s₁ ⟨hraise, hr⟩
  refine .bind_report _ hraise.ready.journal ?_
  refine (ensures_gatherClauses (D := D) hr hraise.ready (hraise.within c (by simp))).mono
    fun _ s₂ hgather => ?_
  exact hrewrites.asserts (hraise.asserts hgather)

/-- Two levels are enough for the definitions of conjunctions' names, and three for those of sides'
names; more do no harm. -/
theorem defines_conjunction (limit : Nat) :
    Defines D (convertWithin (limit + 1)) Term.DefinesConjunction := fun _ _ hs hw ht =>
  ensures_convertBy_conjunction (convertWithin limit) hs hw ht

theorem defines_side (limit : Nat) : Defines D (convertWithin (limit + 2)) Term.DefinesSide :=
  fun _ _ hs hw ht => ensures_convertBy_side (defines_conjunction limit) hs hw ht

/-- **The conversion of a closed formula takes its quantifiers away and asserts what is left.** -/
theorem ensures_convertWithin (D : Type u) (limit : Nat) (hs : s.Ready) (hf : t.isFormula = true)
    (hw : t.Within s.vocabulary) (hfree : t.free = []) :
    Ensures (convertWithin (limit + 3) t) s fun _ s' => ∃ m s₁,
      matrix (t.nnf true) .empty s = .ok m s₁ ∧ Skolemizes D .empty [t.nnf true] [m] s s₁ ∧
        Asserts D m s₁ s' := by
  have hk := Term.KeepsArities.of_isFormula hf
  have hsigned := hk.signed true
  have hfree' : ∀ x ∈ (t.nnf true).free, (Bindings.get? (.empty : Scope) x).isSome = true := by
    rw [hsigned.free_nnf, hfree]
    simp
  rw [convertWithin_succ, convertVia]
  refine .bind_ofExcept (Term.lowerNot_eq_nnf hk true) ?_
  refine .bind_report _ hs.journal ?_
  obtain ⟨m, s₁, hrun, hsk⟩ := ensures_matrix (D := D) hsigned.normal_nnf (hsigned.isFormula_nnf hf)
    (fun f hfun => hw f (hsigned.funs_nnf ▸ hfun)) (Scope.fits_empty s.vocabulary) hfree'
  refine Ensures.bind (P := fun m' s' => m' = m ∧ s' = s₁) ⟨m, s₁, hrun, rfl, rfl⟩ ?_
  rintro _ _ ⟨rfl, rfl⟩
  refine (ensures_clausifyVia_asserts (D := D) (hs.of_grows hsk.grows hsk.clauses) (hsk.isMatrix _ (by simp))
    (defines_side limit) (defines_conjunction (limit + 1))).mono fun _ s' hasserts => ?_
  exact ⟨_, _, hrun, hsk, hasserts⟩

end ConvertM

namespace Conversion

/-- **What a conversion asserts of a formula whose quantifiers stand positively is the formula.** -/
theorem Skolemizes.asserts {D : Type u} {t m : Term} {s s₁ s' : Conversion} (hs : s.Ready)
    (h : Skolemizes D .empty [t] [m] s s₁) (hmono : t.Monotone) (h' : Asserts D m s₁ s') :
    Asserts D t s s' := by
  have hmono : ∀ t' ∈ [t], t'.Monotone := by simpa using hmono
  refine ⟨h.grows.trans h'.grows, h'.ready, fun I hI v => ?_, fun I hI ht => ?_⟩
  · obtain ⟨v', -, hsound⟩ := h.sound hmono I v
    simpa using (List.forall₂_cons.1 hsound).1 (h'.sound I hI v')
  · -- Skolem functions first, then the names that the clauses need
    obtain ⟨J, hIJ, hcomplete⟩ := h.complete hmono I
    have hJ : J.Satisfies s₁.clauses := h.clauses ▸ hIJ.satisfies hs hI
    obtain ⟨K, hJK, hK⟩ := h'.complete J hJ fun v =>
      (List.forall₂_cons.1 (hcomplete v)).1 (by simpa using ht v)
    exact ⟨K, hIJ.trans_minted hJK h.grows.funs h'.grows.funs, hK⟩

end Conversion

end ClauseForm
