import ClauseForm.Proofs.Conversion.Clausal
import ClauseForm.Proofs.Conversion.Invariance
import ClauseForm.Proofs.Conversion.Steps

/-!
# What simplification changes

A conversion that simplifies drops the clauses that are seen to be true, and takes `false` and
`~true` out of the others (`ClauseForm.Clause.cleaned?`), while the conversion is still under way.
Since no stage looks at what is gathered, it could as well be done at the end: of two conversions
that differ in nothing else, the one that simplifies is always in the state that comes of the
other's state when the clauses there are cleaned (`ClauseForm.ConvertM.Composed.run_cleaned`). For
that, it must not fail to tell whether a clause is seen to be true, which is the case for clauses
of literals.

So a formula comes to the cleaned clauses of its evaluated form
(`ClauseForm.convert_simplified`).
-/

universe u

namespace ClauseForm

namespace Clause

open Term

variable {c d : Clause}

/-- Every literal is an atom or the negation of one. -/
def Wide (c : Clause) : Prop :=
  ∀ l ∈ c.literals, l.isWideLiteral = true

/-- The clause without its literals `false` and `~true`; nothing if it is seen to be true. -/
def cleaned? (c : Clause) : Option Clause :=
  match c.isTautology with
  | .ok true => none
  | _ => some ⟨c.literals.filter (!·.isFalsity)⟩

theorem cleaned?_eq (h : c.Wide) : c.cleaned? =
    if SeenTrue c.literals then none else some ⟨c.literals.filter (!·.isFalsity)⟩ := by
  rw [cleaned?, isTautology_eq h]
  by_cases hseen : SeenTrue c.literals <;> simp [hseen]

/-- **No truth value is left, nor a literal together with its negation.** -/
theorem not_mem_of_cleaned? (h : c.Wide) (hd : c.cleaned? = some d) :
    (∀ b, .bool b ∉ d.literals ∧ (Term.bool b).neg ∉ d.literals) ∧
      ∀ l ∈ d.literals, l.neg ∉ d.literals := by
  rw [cleaned?_eq h] at hd
  split at hd
  · cases hd
  · rename_i hseen
    cases hd
    simp only [SeenTrue, not_or, not_exists, not_and] at hseen
    obtain ⟨htrue, hfalse, hpair⟩ := hseen
    refine ⟨fun b => ?_, fun l hl hneg => ?_⟩
    · cases b
      · exact ⟨fun h => by simpa [isFalsity] using (List.mem_filter.1 h).2,
          fun h => hfalse (List.mem_of_mem_filter h)⟩
      · exact ⟨fun h => htrue (List.mem_of_mem_filter h),
          fun h => by simpa [isFalsity] using (List.mem_filter.1 h).2⟩
    · exact hpair l (List.mem_of_mem_filter hl) (List.mem_of_mem_filter hneg)

/-- **A clause that is dropped is true in every interpretation.** -/
theorem holds_of_cleaned?_eq_none (h : c.Wide) (hc : c.cleaned? = none) {D : Type u}
    (I : Interpretation D) (v : Var → D) : I.Holds c.toTerm v := by
  rw [cleaned?_eq h] at hc
  split at hc
  · rename_i hseen
    exact (I.holds_disj v _).2 (hseen.exists_holds I v)
  · cases hc

/-- **A clause that is cleaned says the same as before.** -/
theorem holds_of_cleaned?_eq_some (h : c.Wide) (hd : c.cleaned? = some d) {D : Type u}
    (I : Interpretation D) (v : Var → D) : I.Holds d.toTerm v ↔ I.Holds c.toTerm v := by
  rw [cleaned?_eq h] at hd
  split at hd
  · cases hd
  · cases hd
    exact (I.holds_disj v _).trans ((exists_filter_isFalsity _ I v).trans (I.holds_disj v _).symm)

end Clause

namespace Conversion

/-- The state of a conversion that simplifies, where one that does not is in the state given. -/
def cleaned (s : Conversion) : Conversion :=
  { s with
    config.simplify := true
    clauses := s.clauses.filterMap Clause.cleaned? }

theorem cleaned_gather (s : Conversion) (c : Clause) :
    cleaned { s with clauses := s.clauses ++ [c] } =
      { s.cleaned with clauses := s.cleaned.clauses ++ c.cleaned?.toList } := by
  have hone : [c].filterMap Clause.cleaned? = c.cleaned?.toList := by
    cases h : c.cleaned? <;> simp [h]
  rw [cleaned, List.filterMap_append, hone]
  rfl

end Conversion

namespace ConvertM

open Conversion Term

variable {α : Type} {a : α} {s s' : Conversion}

/-- With simplification, a clause is gathered as it is cleaned. -/
theorem gatherClause_of_simplify (hs : s.config.simplify = true) {c : Clause} (h : c.Wide) :
    gatherClause c s = .ok () { s with clauses := s.clauses ++ c.cleaned?.toList } := by
  unfold gatherClause
  refine bind_eq_ok.2 ⟨s, s, rfl, ?_⟩
  rw [hs, if_pos rfl]
  refine bind_eq_ok.2 ⟨_, s, ofExcept_eq_ok.2 ⟨Clause.isTautology_eq h, rfl⟩, ?_⟩
  rw [Clause.cleaned?_eq h]
  by_cases hseen : SeenTrue c.literals
  · rw [if_pos hseen, if_pos (decide_eq_true hseen), Option.toList_none, List.append_nil]
    rfl
  · rw [if_neg hseen, if_neg (by simpa using hseen)]
    exact bind_eq_ok.2 ⟨_, s, ofExcept_eq_ok.2 ⟨Clause.withoutFalse_eq h, rfl⟩, rfl⟩

/-- **Clauses can be cleaned as they are gathered, or all at the end.** Where a program that does
not simplify comes to an answer, a program that does comes to the same one. -/
theorem Composed.run_cleaned {x : ConvertM α} (h : Composed x) (hs : s.config.simplify = false)
    (hrun : x s = .ok a s') (hw : ∀ c ∈ s'.clauses, c.Wide) : x s.cleaned = .ok a s'.cleaned := by
  induction h generalizing s s' with
  | ofExcept x =>
    obtain ⟨rfl, rfl⟩ := ofExcept_eq_ok.1 hrun
    exact ofExcept_eq_ok.2 ⟨rfl, rfl⟩
  | report e =>
    have hjournal : s.cleaned.journal = s.journal := rfl
    have hvocabulary : s.cleaned.vocabulary = s.vocabulary := rfl
    rw [report_eq] at hrun ⊢
    rw [hjournal, hvocabulary]
    split at hrun
    · cases hrun
      rfl
    · split at hrun
      · cases hrun
        rfl
      · cases hrun
  | freshLike x | newSkolem | newDefinition =>
    cases hrun
    rfl
  | gatherClause c =>
    rw [gatherClause_of_plain hs] at hrun
    cases hrun
    rw [cleaned_gather]
    exact gatherClause_of_simplify rfl (hw c (by simp))
  | bind hx hf ih ihf =>
    obtain ⟨b, s₁, hrun₁, hrun₂⟩ := bind_eq_ok.1 hrun
    have hsteps := hx.bySteps.steps hrun₁
    have hsteps' := (hf b).bySteps.steps hrun₂
    -- what the first program gathered is still there when the second one has ended
    refine bind_eq_ok.2 ⟨b, s₁.cleaned, ih hs hrun₁ fun c hc => ?_, ?_⟩
    · exact hw c (hsteps'.clauses.subset hc)
    · exact ihf b (hsteps.config ▸ hs) hrun₂ hw

end ConvertM

open Conversion ConvertM Term

/-- **Simplification is evaluation of the formula and cleaning of the clauses**: the evaluated
formula is converted without simplification, with the same new symbols, and then the clauses that
are seen to be true are dropped, and `false` and `~true` taken out of the others, those of
definitions included. In what is left, no truth value occurs as a literal, nor a literal together
with its negation; what was dropped is true in every interpretation, and what was cleaned says the
same as before. -/
theorem convert_simplified {config : Config} (hconfig : config.simplify = true) {t : Term}
    (ht : t.WellFormed) (voc : Vocabulary) :
    ∃ u plain voc', t.evaluate .empty = .ok u ∧
      convert { config with simplify := false } u voc = (.ok plain, voc') ∧
      convert config t voc = (.ok ⟨plain.clauses.filterMap Clause.cleaned?⟩, voc') ∧
      (∀ d ∈ plain.clauses.filterMap Clause.cleaned?,
        (∀ b, .bool b ∉ d.literals ∧ (Term.bool b).neg ∉ d.literals) ∧
          ∀ l ∈ d.literals, l.neg ∉ d.literals) ∧
      ∀ c ∈ plain.clauses, ∀ {D : Type u} (I : Interpretation D) (v : Var → D),
        (c.cleaned? = none → I.Holds c.toTerm v) ∧
          ∀ d, c.cleaned? = some d → (I.Holds d.toTerm v ↔ I.Holds c.toTerm v) := by
  obtain ⟨u, hu, huw⟩ := exists_evaluate_wellFormed ht (σ := .empty) fun key u h => by cases h
  let bare : Config := { config with simplify := false }
  obtain ⟨plain, voc', hplain, hliterals⟩ := convert_clausal bare huw voc
  have hwide : ∀ c ∈ plain.clauses, c.Wide := fun c hc l hl =>
    isWideLiteral_of_isLiteral (hliterals c hc l hl).1
  obtain ⟨s, hadd, rfl, rfl⟩ := exists_of_convert hplain
  have hstart : (start bare voc).cleaned = start config voc := by
    cases config
    cases hconfig
    rfl
  have hrun := (composed_convertWithin _ _).run_cleaned rfl ((add_eq_ok rfl rfl).1 hadd) hwide
  rw [hstart] at hrun
  have hprepared : prepared config t = .ok u := by rw [prepared, if_pos hconfig, hu]
  refine ⟨u, _, _, hu, hplain, convert_of_add ((add_eq_ok hprepared rfl).2 hrun), ?_, ?_⟩
  · intro d hd
    obtain ⟨c, hc, hcd⟩ := List.mem_filterMap.1 hd
    exact Clause.not_mem_of_cleaned? (hwide c hc) hcd
  · intro c hc D I v
    exact ⟨fun hnone => Clause.holds_of_cleaned?_eq_none (hwide c hc) hnone I v,
      fun d hd => Clause.holds_of_cleaned?_eq_some (hwide c hc) hd I v⟩

/-- The formula `(p => $false) <=> (q => ($true => q))`, in which evaluation finds nothing to
fold. -/
def foldlessExample : Term :=
  .iff (.imp (.const ⟨0, .declared⟩) (.bool false))
    (.imp (.const ⟨1, .declared⟩) (.imp (.bool true) (.const ⟨1, .declared⟩)))

/-- What is left of its clauses. Those of the names of the two sides come first, three of the one and
four of the other. The second of each holds `~$false` or `$true` and is dropped; the last loses
`$false` in the one case, and is dropped in the other, since it holds `q` and `~q`. -/
def foldlessOutcome : List (Option Clause) :=
  let p : Term := .const ⟨0, .declared⟩
  let q : Term := .const ⟨1, .declared⟩
  let left : Term := .const ⟨3, .definition⟩
  let right : Term := .const ⟨4, .definition⟩
  [some ⟨[p, left]⟩, none, some ⟨[left.neg, p.neg]⟩,
    some ⟨[q, right]⟩, none, some ⟨[q.neg, right]⟩, none,
    some ⟨[left.neg, right]⟩, some ⟨[right.neg, left]⟩]

theorem convert_simplified_foldlessExample :
    ({ simplify := true } : Config).simplify = true ∧ foldlessExample.WellFormed ∧
      ∃ u plain voc', foldlessExample.evaluate .empty = .ok u ∧
        convert {} u openVocabulary = (.ok plain, voc') ∧
        convert { simplify := true } foldlessExample openVocabulary =
          (.ok ⟨plain.clauses.filterMap Clause.cleaned?⟩, voc') ∧
        (∀ d ∈ plain.clauses.filterMap Clause.cleaned?,
          (∀ b, .bool b ∉ d.literals ∧ (Term.bool b).neg ∉ d.literals) ∧
            ∀ l ∈ d.literals, l.neg ∉ d.literals) ∧
        (∀ c ∈ plain.clauses, ∀ {D : Type u} (I : Interpretation D) (v : Var → D),
          (c.cleaned? = none → I.Holds c.toTerm v) ∧
            ∀ d, c.cleaned? = some d → (I.Holds d.toTerm v ↔ I.Holds c.toTerm v)) ∧
        plain.clauses.map Clause.cleaned? = foldlessOutcome := by
  have hconfig : ({ simplify := true } : Config).simplify = true := rfl
  have hformed : foldlessExample.WellFormed := by decide
  obtain ⟨u, plain, voc', hu, hplain, hsimplified, hclean, hsame⟩ :=
    convert_simplified hconfig hformed openVocabulary
  have hkept : foldlessExample.evaluate .empty = .ok foldlessExample := by
    decide +kernel
  obtain rfl : foldlessExample = u := Except.ok.inj (hkept.symm.trans hu)
  have houtcome : (convert {} foldlessExample openVocabulary).1.toOption.map
      (fun cnf => cnf.clauses.map Clause.cleaned?) = some foldlessOutcome := by decide +kernel
  rw [hplain] at houtcome
  exact ⟨hconfig, hformed, foldlessExample, plain, voc', hu, hplain, hsimplified, hclean, hsame,
    Option.some.inj houtcome⟩

end ClauseForm
