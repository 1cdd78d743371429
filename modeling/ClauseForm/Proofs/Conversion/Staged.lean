import ClauseForm.Proofs.Conversion.Introducing
import ClauseForm.Proofs.Conversion.Invariance
import ClauseForm.Proofs.Conversion.Steps
import ClauseForm.Proofs.Conversion.Weaving

/-!
# A conversion stage by stage

If nothing is simplified and no journal is kept, the conversion of a closed formula consists of
three stages (`ClauseForm.Conversion.Staged`): its quantifiers are taken away, biconditionals are
written out, and conjunctions are raised. The clauses of what is left are added to those of the
definitions (`ClauseForm.Conversion.Staged.convert_eq`). At each stage, the term is made of symbols
that the vocabulary has given so far, and so are the clauses
(`ClauseForm.Conversion.Staged.held`).
-/

namespace ClauseForm

open ConvertM Term

namespace Ledger

variable {L : Ledger} {gs : List Term} {t : Term} {s s' : Conversion}

/-- What a ledger accounts for is made of symbols given so far, if what was known is. -/
theorem Accounts.heldBy (h : L.Accounts t) (hfits : L.Fits s)
    (hknown : ∀ f ∈ L.known, f.id < s.vocabulary.funs.size) : t.HeldBy s.vocabulary := by
  refine ⟨h.quantifierFree, h.keepsArities, fun x hx => hfits.vars ▸ (h.mem_vars hx).2,
    fun f hf => ?_⟩
  rcases h.mem_funs hf with hf | ⟨m, k, hk, rfl⟩
  · exact hknown f hf
  · rw [hfits.funs]
    exact Nat.add_lt_add_left (List.getElem?_eq_some_iff.1 hk).1 _

/-- So are the clauses of the definitions that were posted. -/
theorem Posts.goes (h : L.Posts gs s s') (hsteps : Conversion.Steps s s')
    (hknown : ∀ f ∈ L.known, f.id < s.vocabulary.funs.size) : Conversion.Goes s s' := by
  obtain ⟨cs, hcs, hc⟩ := h.clauses
  refine ⟨hsteps.config, h.vocabulary, fun c hc' => ?_⟩
  rw [hcs, List.mem_append] at hc'
  refine hc'.imp_right fun hmem l hl => (hc c hmem l hl).heldBy h.fits fun f hf => ?_
  exact Nat.lt_of_lt_of_le (hknown f hf) h.vocabulary.funs_le

end Ledger

namespace Conversion

/-- The conversion of a closed formula goes through three states: `m` is what is left when the
quantifiers are taken away, `e` when biconditionals are written out, and `c` when conjunctions are
raised. -/
structure Staged (t : Term) (s s₁ s₂ s₃ : Conversion) (m e c : Term) : Prop where
  matrix : matrix (t.nnf true) .empty s = .ok m s₁
  expand : expandIffs (convertWithin 3) m s₁ = .ok e s₂
  raise : raiseAnds (convertWithin 3) e s₂ = .ok c s₃

variable {t m e c : Term} {s s₁ s₂ s₃ s' : Conversion} {voc : Vocabulary}

namespace Staged

theorem steps₁ (h : Staged t s s₁ s₂ s₃ m e c) : Steps s s₁ :=
  (composed_matrix _ _).bySteps.steps h.matrix

theorem steps₂ (h : Staged t s s₁ s₂ s₃ m e c) : Steps s₁ s₂ :=
  (composed_expandIffs (composed_convertWithin 3) m).bySteps.steps h.expand

theorem steps₃ (h : Staged t s s₁ s₂ s₃ m e c) : Steps s₂ s₃ :=
  (composed_raiseAnds (composed_convertWithin 3) e).bySteps.steps h.raise

theorem steps (h : Staged t s s₁ s₂ s₃ m e c) : Steps s s₃ :=
  (h.steps₁.trans h.steps₂).trans h.steps₃

/-- **The clauses of a closed formula are those of the definitions, followed by those that are made
of the formula.** -/
theorem convert_eq (h : Staged t (start {} voc) s₁ s₂ s₃ m e c) (hk : t.KeepsArities)
    (hclosed : t.freeVars = []) :
    convert {} t voc = (.ok ⟨s₃.clauses ++ c.clauseList⟩, s₃.vocabulary) := by
  let s' : Conversion := { s₃ with clauses := s₃.clauses ++ c.clauseList }
  have hquiet : s₃.journal = none := h.steps.journal rfl
  have hplain : s₃.config.simplify = false := congrArg Config.simplify h.steps.config
  have hclausify : clausifyVia (convertWithin 3) (convertWithin 3) m s₁ = .ok () s' :=
    bind_eq_ok.2 ⟨e, s₂, h.expand, bind_eq_ok.2 ⟨c, s₃, h.raise, bind_eq_ok.2 ⟨(), s₃,
      report_of_quiet hquiet _, gatherClauses_of_plain hplain c⟩⟩⟩
  have hrun : convertWithin nestingLimit t.universalClosure (start {} voc) = .ok () s' := by
    rw [universalClosure_eq_self hclosed, nestingLimit, convertWithin_succ, convertVia,
      lowerNot_eq_nnf hk]
    refine bind_eq_ok.2 ⟨_, _, ofExcept_eq_ok.2 ⟨rfl, rfl⟩, ?_⟩
    refine bind_eq_ok.2 ⟨(), _, report_of_quiet rfl _, ?_⟩
    exact bind_eq_ok.2 ⟨m, s₁, h.matrix, hclausify⟩
  have hadd : add t (start {} voc) = .ok () s' := (add_eq_ok (u := t) rfl rfl).2 hrun
  exact convert_of_add hadd

/-- **At every stage, only symbols occur that were given so far**, in the term and in the
clauses. -/
theorem held (h : Staged t s s₁ s₂ s₃ m e c) (hk : t.KeepsArities) (hclosed : t.freeVars = [])
    (hw : t.Within s.vocabulary) :
    (Goes s s₁ ∧ Goes s₁ s₂ ∧ Goes s₂ s₃) ∧
      m.HeldBy s₁.vocabulary ∧ e.HeldBy s₂.vocabulary ∧ c.HeldBy s₃.vocabulary := by
  obtain ⟨⟨hfits₁, hext₁, hc₁, -⟩, hm⟩ :=
    Ledger.brings_matrix hk (free_eq_nil hclosed) (fun f hf => hf) h.matrix
  obtain ⟨gs₂, hposts₂, he⟩ :=
    Ledger.covers_expandIffs (Ledger.covers_convertWithin 3) hm _ _ _ hfits₁ h.expand
  obtain ⟨gs₃, hposts₃, hc⟩ :=
    Ledger.covers_raiseAnds (Ledger.covers_convertWithin 3) he _ _ _ hposts₂.fits h.raise
  have hknown₁ : ∀ f ∈ t.funs, f.id < s₁.vocabulary.funs.size := hw.mono hext₁.funs_le
  have hknown₂ : ∀ f ∈ t.funs, f.id < s₂.vocabulary.funs.size := fun f hf =>
    Nat.lt_of_lt_of_le (hknown₁ f hf) hposts₂.vocabulary.funs_le
  have hknown₃ : ∀ f ∈ t.funs, f.id < s₃.vocabulary.funs.size := fun f hf =>
    Nat.lt_of_lt_of_le (hknown₂ f hf) hposts₃.vocabulary.funs_le
  refine ⟨⟨⟨h.steps₁.config, hext₁, fun c hc => .inl (hc₁ ▸ hc)⟩, hposts₂.goes h.steps₂ hknown₁,
    hposts₃.goes h.steps₃ hknown₂⟩, hm.heldBy hfits₁ hknown₁, he.heldBy hposts₂.fits hknown₂,
    hc.heldBy hposts₃.fits hknown₃⟩

end Staged

/-- Where no journal is kept, a run that adds a formula goes through the stages of the closure of
what it is prepared to, and then gathers the clauses of what is left. -/
theorem exists_staged_of_add {u : Term} (hprepared : prepared s.config t = .ok u)
    (hs : s.journal = none) (hk : u.universalClosure.KeepsArities) (h : add t s = .ok () s') :
    ∃ s₁ s₂ s₃ m e c,
      Staged u.universalClosure s s₁ s₂ s₃ m e c ∧ gatherClauses c s₃ = .ok () s' := by
  rw [add_eq_ok hprepared hs, nestingLimit, convertWithin_succ, convertVia,
    lowerNot_eq_nnf hk] at h
  obtain ⟨_, r, hnormal, h⟩ := bind_eq_ok.1 h
  cases hnormal
  obtain ⟨_, r, hreport, h⟩ := bind_eq_ok.1 h
  rw [report_of_quiet hs] at hreport
  cases hreport
  obtain ⟨m, s₁, hmatrix, h⟩ := bind_eq_ok.1 h
  obtain ⟨e, s₂, hexpand, h⟩ := bind_eq_ok.1 h
  obtain ⟨c, s₃, hraise, h⟩ := bind_eq_ok.1 h
  have hstaged : Staged u.universalClosure s s₁ s₂ s₃ m e c := ⟨hmatrix, hexpand, hraise⟩
  obtain ⟨_, r, hreport, h⟩ := bind_eq_ok.1 h
  rw [report_of_quiet (hstaged.steps.journal hs)] at hreport
  cases hreport
  exact ⟨s₁, s₂, s₃, m, e, c, hstaged, h⟩

/-- **Every closed formula that keeps the argument counts goes through the stages.** -/
theorem exists_staged (hk : t.KeepsArities) (hclosed : t.freeVars = []) (voc : Vocabulary) :
    ∃ s₁ s₂ s₃ m e c, Staged t (start {} voc) s₁ s₂ s₃ m e c := by
  obtain ⟨s', hrun⟩ := exists_add hk (start {} voc)
  have hself := universalClosure_eq_self hclosed
  obtain ⟨s₁, s₂, s₃, m, e, c, hstaged, -⟩ :=
    exists_staged_of_add (u := t) rfl rfl (hself.symm ▸ hk) hrun
  rw [hself] at hstaged
  exact ⟨s₁, s₂, s₃, m, e, c, hstaged⟩

end Conversion

end ClauseForm
