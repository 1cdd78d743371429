import ClauseForm.Proofs.Conversion.Invariance
import ClauseForm.Proofs.Conversion.Steps

/-!
# One conversion after the other

Several formulas can be converted one after the other, each by a conversion of its own
(`ClauseForm.convertEach`), or together by a single one (`ClauseForm.convertAll`), which
carries its clauses and its counters on. That comes to the same
(`ClauseForm.convertAll_eq_convertEach`): nothing but the names of new function symbols is
read off the counters, and nothing at all off the clauses.

Of the vocabularies more is to be said than that one mirrors the other. The variables are
the same by name as well, since a fresh variable is shown like the one that it stands for:
which names come when is written in the normal form (`ClauseForm.Term.universalVars`).
-/

namespace ClauseForm

/-- The clauses of several formulas, each converted by a conversion of its own, one after the other,
and the vocabulary with the symbols of all. -/
def convertEach (config : Config) :
    List Term → Vocabulary → Except Fault (List Cnf) × Vocabulary
  | [], voc => (.ok [], voc)
  | t :: ts, voc =>
    match convert config t voc with
    | (.error fault, voc) => (.error fault, voc)
    | (.ok cnf, voc) =>
      match convertEach config ts voc with
      | (.error fault, voc) => (.error fault, voc)
      | (.ok cnfs, voc) => (.ok (cnf :: cnfs), voc)

theorem convertEach_cons {config : Config} {t : Term} {ts : List Term} {cnf : Cnf}
    {cnfs : List Cnf} {v v₁ v₂ : Vocabulary} (h : convert config t v = (.ok cnf, v₁))
    (hs : convertEach config ts v₁ = (.ok cnfs, v₂)) :
    convertEach config (t :: ts) v = (.ok (cnf :: cnfs), v₂) := by
  rw [convertEach, h]
  dsimp only
  rw [hs]

/-! ### The names of fresh variables -/

namespace Term

mutual

/-- The variables that the universal quantifiers of a term bind, from left to right. -/
def universalVars : Term → List Var
  | .call _ args => universalVarsAll args
  | .node _ args => universalVarsAll args
  | .quant .all xs body => xs ++ universalVars body
  | .quant .exist _ body => universalVars body
  | _ => []

/-- The variables that the universal quantifiers of several terms bind, from left to right. -/
def universalVarsAll : List Term → List Var
  | [] => []
  | t :: ts => universalVars t ++ universalVarsAll ts

end

end Term

/-- The names of variables, and of fresh ones that are shown like the given ones in turn. -/
def Vocabulary.showLike (names : Array (Option String)) (xs : List Var) : Array (Option String) :=
  xs.foldl (fun names x => names.push names[x.id]?.join) names

namespace ConvertM

open Conversion Term

variable {α β : Type} {xs ys : List Var}

/-- Wherever the program comes to an end, it has allotted variables that are shown like the given
ones. -/
def Allots (xs : List Var) (x : ConvertM α) : Prop :=
  ∀ s a s', x s = .ok a s' → s'.vocabulary.vars = Vocabulary.showLike s.vocabulary.vars xs

namespace Allots

theorem pure (a : α) : Allots [] (Pure.pure a : ConvertM α) := by
  intro s b s' hrun
  obtain ⟨-, rfl⟩ := pure_eq_ok.1 hrun
  rfl

theorem bind {x : ConvertM α} {f : α → ConvertM β} (h : Allots xs x) (hf : ∀ a, Allots ys (f a)) :
    Allots (xs ++ ys) (x >>= f) := by
  intro s b s'' hrun
  obtain ⟨a, s', hx, hfa⟩ := bind_eq_ok.1 hrun
  rw [hf a s' b s'' hfa, h s a s' hx, Vocabulary.showLike, Vocabulary.showLike,
    Vocabulary.showLike, List.foldl_append]

/-- An answer made of that of a program. -/
theorem map {x : ConvertM α} (g : α → β) (h : Allots xs x) : Allots xs (do return g (← x)) := by
  have hboth := h.bind fun a => pure (g a)
  rwa [List.append_nil] at hboth

end Allots

theorem allots_freshLike (x : Var) : Allots [x] (freshLike x) := by
  intro s a s' hrun
  cases hrun
  rfl

theorem allots_newSkolem : Allots [] newSkolem := by
  intro s a s' hrun
  cases hrun
  rfl

theorem allots_bindFresh (xs : List Var) (σ : Scope) : Allots xs (σ.bindFresh xs) := by
  induction xs generalizing σ with
  | nil => exact .pure σ
  | cons x xs ih => exact (allots_freshLike x).bind fun y => ih _

theorem allots_bindSkolem (args : List Term) (xs : List Var) (σ : Scope) :
    Allots [] (σ.bindSkolem args xs) := by
  induction xs generalizing σ with
  | nil => exact .pure σ
  | cons x xs ih => exact allots_newSkolem.bind fun f => ih _

/-- Taking quantifiers away allots a variable for each universally bound one. -/
theorem allots_matrix (t : Term) (σ : Scope) : Allots t.universalVars (matrix t σ) := by
  have hall : ∀ {ts : List Term} {σ : Scope},
      (∀ a ∈ ts, Allots a.universalVars (matrix a σ)) →
        Allots (universalVarsAll ts) (matrixAll ts σ) := by
    intro ts σ h
    induction ts with
    | nil => exact .pure []
    | cons t ts ih =>
      rw [List.forall_mem_cons] at h
      rw [matrixAll, universalVarsAll]
      exact h.1.bind fun m => (ih h.2).map (m :: ·)
  induction t using Term.induct generalizing σ with
  | call f args ih =>
    rw [matrix_call, universalVars]
    exact (hall fun a ha => ih a ha σ).map (Term.call f)
  | node op args ih =>
    rw [matrix_node, universalVars]
    exact (hall fun a ha => ih a ha σ).map (Term.node op)
  | quant q xs body ih =>
    cases q with
    | all => exact (allots_bindFresh xs σ).bind fun τ => ih τ
    | exist => exact (allots_bindSkolem _ xs σ).bind fun τ => ih τ
  | _ => exact .pure _

/-- **Adding a closed formula allots a variable for each one that its normal form binds
universally**, and no others: what is done once the quantifiers are gone needs none. -/
theorem vars_of_addClosed {t : Term} {s s' : Conversion} {before : Nat} (hk : t.KeepsArities)
    (hclosed : t.free = []) (h : addClosed before t s = .ok () s') :
    s'.vocabulary.vars = Vocabulary.showLike s.vocabulary.vars (t.nnf true).universalVars := by
  obtain ⟨m, s₁, s₂, s₃, hv₁, -, -, hmatrix, hclausify, hv', -⟩ := exists_of_addClosed hk h
  obtain ⟨hbrings, hm⟩ := Ledger.brings_matrix hk hclosed (fun f hf => hf) hmatrix
  obtain ⟨gs, hposts, -⟩ :=
    Ledger.covers_clausifyVia (Ledger.covers_convertWithin 3) hm s₂ () s₃ hbrings.fits hclausify
  have hsize : s₂.vocabulary.vars.size = s₃.vocabulary.vars.size :=
    hbrings.fits.vars.trans hposts.fits.vars.symm
  have hsame : s₂.vocabulary.vars = s₃.vocabulary.vars :=
    Array.toList_inj.1 (hposts.vocabulary.vars.eq_of_length (by simpa using hsize))
  rw [hv', ← hsame, allots_matrix _ _ _ _ _ hmatrix, hv₁]

end ConvertM

/-! ### Together and in turn -/

namespace Conversion

open ConvertM Term

/-- A conversion under way and a vocabulary agree in all that a conversion by the vocabulary can
make use of. -/
structure Matches (config : Config) (s : Conversion) (voc : Vocabulary) : Prop where
  config : s.config = config
  vars : s.vocabulary.vars = voc.vars
  funs : s.vocabulary.funs.size = voc.funs.size

variable {config : Config} {s : Conversion} {voc : Vocabulary} {t : Term}

/-- **A formula adds the clauses that it has on its own**, whatever was added before. -/
theorem Matches.exists_add (h : s.Matches config voc) (hk : t.KeepsArities) :
    ∃ s' cnf voc', add t s = .ok () s' ∧ convert config t voc = (.ok cnf, voc') ∧
      s'.clauses = s.clauses ++ cnf.clauses ∧ s'.Matches config voc' ∧
      s.vocabulary.Extends s'.vocabulary ∧ voc.Extends voc' := by
  obtain ⟨u, hu, huk⟩ := exists_prepared_keepsArities config hk
  have hclosed := keepsArities_universalClosure huk
  have hstart : add t s = addClosed s.clauses.length u.universalClosure s :=
    add_eq_addClosed (h.config ▸ hu)
  have hstart' : add t (start config voc) = addClosed 0 u.universalClosure (start config voc) :=
    add_eq_addClosed hu
  obtain ⟨s', hrun⟩ := ConvertM.exists_add hk s
  have halike : Alike .refl s (start config voc) :=
    ⟨congrArg Config.simplify h.config.symm,
      fun k => congrArg (fun names : Array (Option String) => Var.mk (names.size + k)) h.vars,
      fun k o => congrArg (fun n => FunSym.mk (n + k) o) h.funs⟩
  obtain ⟨_, r, hrun', -, halike', cs, hcs, hcs'⟩ := mirrors_addClosed s.clauses.length 0
    (.refl (fun _ => rfl) (fun _ => rfl) _) hclosed s _ () s' halike (hstart ▸ hrun)
  have hrun' : add t (start config voc) = .ok () r := hstart'.trans hrun'
  have hvars := vars_of_addClosed hclosed u.free_universalClosure (hstart ▸ hrun)
  have hvars' := vars_of_addClosed hclosed u.free_universalClosure (hstart' ▸ hrun')
  have hsteps := (bySteps_add t).steps hrun
  have hsteps' := (bySteps_add t).steps hrun'
  refine ⟨s', ⟨r.clauses⟩, r.vocabulary, hrun, convert_of_add hrun', ?_, ⟨?_, ?_, ?_⟩,
    hsteps.vocabulary, hsteps'.vocabulary⟩
  · rw [hcs, hcs', List.map_congr_left fun c _ => Clause.relabel_refl c, List.map_id']
    rfl
  · rw [hsteps.config, h.config]
  · rw [hvars, hvars', h.vars]
    rfl
  · exact congrArg FunSym.id (halike'.funs 0 .skolem)

end Conversion

open Conversion ConvertM Term

/-- So do several formulas, one after the other. -/
theorem Conversion.Matches.exists_addAll {config : Config} {s : Conversion} {voc : Vocabulary}
    {ts : List Term} (h : s.Matches config voc) (hk : ∀ t ∈ ts, t.KeepsArities) :
    ∃ counts s' cnfs voc', addAll ts s = .ok counts s' ∧
      convertEach config ts voc = (.ok cnfs, voc') ∧
      s'.clauses = s.clauses ++ cnfs.flatMap Cnf.clauses ∧ s'.Matches config voc' ∧
      s.vocabulary.Extends s'.vocabulary ∧ voc.Extends voc' := by
  induction ts generalizing s voc with
  | nil => exact ⟨[], s, [], voc, rfl, rfl, by simp, h, .refl _, .refl _⟩
  | cons t ts ih =>
    rw [List.forall_mem_cons] at hk
    obtain ⟨s₁, cnf, v₁, hadd, hconvert, hclauses, hmatches, hext, hext'⟩ := h.exists_add hk.1
    obtain ⟨counts, s₂, cnfs, v₂, haddAll, hconvertEach, hclauses', hmatches', hext₂, hext₂'⟩ :=
      ih hmatches hk.2
    refine ⟨s₁.clauses.length :: counts, s₂, cnf :: cnfs, v₂, ?_,
      convertEach_cons hconvert hconvertEach, ?_, hmatches', hext.trans hext₂,
      hext'.trans hext₂'⟩
    · refine bind_eq_ok.2 ⟨(), s₁, hadd, ?_⟩
      exact bind_eq_ok.2 ⟨s₁, s₁, rfl, bind_eq_ok.2 ⟨counts, s₂, haddAll, rfl⟩⟩
    · rw [hclauses', hclauses, List.flatMap_cons, List.append_assoc]

/-- **Formulas have the same clauses together as in turn**: the same terms in the same order, for
whatever choices. The variables are the same, by name as well, and there are as many function
symbols; of these, the ones that were there keep their names. -/
theorem convertAll_eq_convertEach (config : Config) {ts : List Term}
    (h : ∀ t ∈ ts, t.WellFormed) (voc : Vocabulary) :
    ∃ cnfs voc₁ voc₂, convertAll config ts voc = (.ok ⟨cnfs.flatMap Cnf.clauses⟩, voc₁) ∧
      convertEach config ts voc = (.ok cnfs, voc₂) ∧
      voc₁.vars = voc₂.vars ∧ voc₁.funs.size = voc₂.funs.size ∧
      ∀ f : FunSym, f.id < voc.funs.size →
        voc₁.funName? f = voc.funName? f ∧ voc₂.funName? f = voc.funName? f := by
  have hmatches : (start config voc).Matches config voc := ⟨rfl, rfl, rfl⟩
  obtain ⟨counts, s, cnfs, voc', hrun, heach, hclauses, hmatches', hext, hext'⟩ :=
    hmatches.exists_addAll fun t ht => (h t ht).keepsArities
  refine ⟨cnfs, s.vocabulary, voc', ?_, heach, hmatches'.vars, hmatches'.funs, fun f hf =>
    ⟨hext.funName? hf, hext'.funName? hf⟩⟩
  rw [convertAll, EStateM.run, hrun, finish, hclauses]
  rfl

theorem convertAll_eq_convertEach_openExample :
    (∀ t ∈ [openExample, openExample], t.WellFormed) ∧
      ∃ cnfs voc₁ voc₂, convertAll { simplify := true } [openExample, openExample] openVocabulary =
          (.ok ⟨cnfs.flatMap Cnf.clauses⟩, voc₁) ∧
        convertEach { simplify := true } [openExample, openExample] openVocabulary =
          (.ok cnfs, voc₂) ∧
        voc₁.vars = voc₂.vars ∧ voc₁.funs.size = voc₂.funs.size ∧
        ∀ f : FunSym, f.id < openVocabulary.funs.size →
          voc₁.funName? f = openVocabulary.funName? f ∧
            voc₂.funName? f = openVocabulary.funName? f :=
  ⟨by decide, convertAll_eq_convertEach { simplify := true } (by decide) openVocabulary⟩

end ClauseForm
