import ClauseForm.Proofs.Conversion.Correct
import ClauseForm.Proofs.Conversion.Passes

/-!
# How deep conversions are nested

A conversion is entered again for each definition that it makes, with formulas that may be
larger than the one it began with. Here stands a conversion that is watched
(`ClauseForm.ConvertM.convertLayered`): it is written out level by level, to a depth of
three, and ends in a fault wherever more than that is asked of it.

* The definition of a side's name must hold no quantifier and no biconditional, and
  naming a side while it is converted is a fault (`ClauseForm.ConvertM.convertSide`).
* While the definition of a conjunction's name is converted, making a definition is a
  fault (`ClauseForm.ConvertM.convertConjunction`).

Being watched only adds faults (`ClauseForm.ConvertM.refines_convertLayered`), and on
first-order formulas not even these: the watched conversion comes to an end without a
fault, and so does the plain one, in the same state (`ClauseForm.convert_layered`).
-/

namespace ClauseForm

namespace ConvertM

open Conversion Term

/-! ### Steps that only add faults -/

/-- Wherever the first step comes to an end without a fault, the second one does the same. -/
def Refines {α : Type} (x y : ConvertM α) : Prop :=
  ∀ s a s', x s = .ok a s' → y s = .ok a s'

namespace Refines

variable {α β : Type} {side side' conj conj' : Term → ConvertM Unit}

theorem refl (x : ConvertM α) : Refines x x :=
  fun _ _ _ h => h

theorem trans {x y z : ConvertM α} (h : Refines x y) (h' : Refines y z) : Refines x z :=
  fun s a s' hx => h' s a s' (h s a s' hx)

theorem bind {x y : ConvertM α} {f g : α → ConvertM β} (h : Refines x y)
    (hf : ∀ a, Refines (f a) (g a)) : Refines (x >>= f) (y >>= g) := by
  intro s b s'' hrun
  change EStateM.bind x f s = _ at hrun
  change EStateM.bind y g s = _
  unfold EStateM.bind at hrun ⊢
  cases hx : x s with
  | ok a s' =>
    rw [hx] at hrun
    rw [h s a s' hx]
    exact hf a s' b s'' hrun
  | error fault s' =>
    rw [hx] at hrun
    cases hrun

/-- After the same step. -/
theorem next (x : ConvertM α) {f g : α → ConvertM β} (hf : ∀ a, Refines (f a) (g a)) :
    Refines (x >>= f) (x >>= g) :=
  (refl x).bind hf

theorem mapM {f g : Term → ConvertM Term} {ts : List Term} (h : ∀ t ∈ ts, Refines (f t) (g t)) :
    Refines (ts.mapM f) (ts.mapM g) := by
  induction ts with
  | nil => exact refl _
  | cons t ts ih =>
    rw [List.forall_mem_cons] at h
    rw [List.mapM_cons, List.mapM_cons]
    exact h.1.bind fun t' => (ih h.2).bind fun ts' => refl _

theorem nameSide (h : ∀ t, Refines (side t) (side' t)) (t : Term) :
    Refines (ClauseForm.nameSide side t) (ClauseForm.nameSide side' t) := by
  unfold ClauseForm.nameSide
  refine next _ fun core => ?_
  split
  · exact next _ fun atom => (h _).bind fun _ => refl _
  · exact refl _

theorem expandIffs (h : ∀ t, Refines (side t) (side' t)) (t : Term) :
    Refines (ClauseForm.expandIffs side t) (ClauseForm.expandIffs side' t) := by
  induction t using Term.induct with
  | node op args ih =>
    rw [ClauseForm.expandIffs, ClauseForm.expandIffs, expandIffsAll_eq_mapM, expandIffsAll_eq_mapM]
    refine (mapM ih).bind fun args' => ?_
    split
    · refine next _ fun left => (nameSide h left).bind fun l => ?_
      exact next _ fun right => (nameSide h right).bind fun r => refl _
    · exact refl _
  | _ => exact refl _

theorem disjoin (h : ∀ t, Refines (conj t) (conj' t)) (args : List Term) :
    Refines (ClauseForm.disjoin conj args) (ClauseForm.disjoin conj' args) := by
  have hname : ∀ t, Refines (nameConjunction conj t) (nameConjunction conj' t) := by
    intro t
    unfold nameConjunction
    split
    · exact next _ fun atom => (h _).bind fun _ => refl _
    · exact refl _
  unfold ClauseForm.disjoin
  split
  · exact refl _
  · exact (mapM fun t _ => hname t).bind fun args' => refl _

theorem raiseAnds (h : ∀ t, Refines (conj t) (conj' t)) (t : Term) :
    Refines (ClauseForm.raiseAnds conj t) (ClauseForm.raiseAnds conj' t) := by
  induction t using Term.induct with
  | node op args ih =>
    cases op with
    | and =>
      rw [ClauseForm.raiseAnds, ClauseForm.raiseAnds, raiseAndsAll_eq_mapM, raiseAndsAll_eq_mapM]
      exact (mapM ih).bind fun args' => refl _
    | or =>
      rw [ClauseForm.raiseAnds, ClauseForm.raiseAnds, raiseAndsAll_eq_mapM, raiseAndsAll_eq_mapM]
      exact (mapM ih).bind fun args' => disjoin h args'
    | _ => exact refl _
  | _ => exact refl _

/-- **A conversion whose definitions go ways that only add faults only adds faults.** -/
theorem convertVia (hside : ∀ t, Refines (side t) (side' t))
    (hconj : ∀ t, Refines (conj t) (conj' t)) (t : Term) :
    Refines (ConvertM.convertVia side conj t) (ConvertM.convertVia side' conj' t) := by
  unfold ConvertM.convertVia clausifyVia
  refine next _ fun normal => next _ fun _ => next _ fun m => ?_
  exact (expandIffs hside m).bind fun m' => (raiseAnds hconj m').bind fun c => refl _

end Refines

/-! ### The watched conversion -/

/-- A way that no definition may go. -/
def refuse (_ : Term) : ConvertM Unit :=
  throw .nesting

/-- The step, in which no definition may be made. -/
def withoutDefinitions (x : ConvertM Unit) : ConvertM Unit := do
  let before ← get
  x
  let after ← get
  if after.definitions = before.definitions then return else throw .nesting

/-- Converts the definition of a conjunction's name; no definition may be made meanwhile. -/
def convertConjunction (t : Term) : ConvertM Unit :=
  withoutDefinitions (convertVia refuse refuse t)

/-- Converts the definition of a side's name, which has to be plain; only conjunctions may be named
meanwhile. -/
def convertSide (t : Term) : ConvertM Unit :=
  if t.Plain then convertVia refuse convertConjunction t else throw .nesting

/-- Converts a closed formula, and watches what is done with the definitions. -/
def convertLayered (t : Term) : ConvertM Unit :=
  convertVia convertSide convertConjunction t

theorem refines_refuse (t : Term) (x : ConvertM Unit) : Refines (refuse t) x := by
  intro s a s' hrun
  cases hrun

theorem refines_withoutDefinitions (x : ConvertM Unit) : Refines (withoutDefinitions x) x := by
  intro s a s' hrun
  change EStateM.bind x _ s = _ at hrun
  unfold EStateM.bind at hrun
  cases hx : x s with
  | ok b s₁ =>
    rw [hx] at hrun
    change (if s₁.definitions = s.definitions then pure () else throw .nesting : ConvertM Unit) s₁ =
      _ at hrun
    split at hrun
    · exact hrun
    · cases hrun
  | error fault s₁ =>
    rw [hx] at hrun
    cases hrun

theorem refines_convertConjunction (limit : Nat) (t : Term) :
    Refines (convertConjunction t) (convertWithin (limit + 1) t) := by
  rw [convertWithin_succ]
  refine (refines_withoutDefinitions _).trans (.convertVia (fun t => ?_) (fun t => ?_) t)
  · exact refines_refuse t _
  · exact refines_refuse t _

theorem refines_convertSide (limit : Nat) (t : Term) :
    Refines (convertSide t) (convertWithin (limit + 2) t) := by
  rw [convertWithin_succ, convertSide]
  split
  · refine .convertVia (fun t => ?_) (fun t => ?_) t
    · exact refines_refuse t _
    · exact refines_convertConjunction limit t
  · intro s a s' hrun
    cases hrun

/-- **Being watched only adds faults**: where the watched conversion comes to an end, the plain one
does the same, and needs no more than three levels. -/
theorem refines_convertLayered (limit : Nat) (t : Term) :
    Refines (convertLayered t) (convertWithin (limit + 3) t) := by
  rw [convertWithin_succ]
  refine .convertVia (fun t => ?_) (fun t => ?_) t
  · exact refines_convertSide limit t
  · exact refines_convertConjunction (limit + 1) t

/-! ### Nothing is found -/

theorem namesConjunctions_convertConjunction {counted : Bool} {p : Term → Prop}
    (hp : LiteralClass p) : NamesConjunctions counted p convertConjunction := by
  intro c atom s hand hc ha hpa hs
  unfold convertConjunction withoutDefinitions
  refine .bind_get ?_
  refine (ensures_convertVia_conjunction counted hp refuse refuse hand hc ha hpa
    hs).bind ?_
  rintro _ s' ⟨hdef, hspends⟩
  refine .bind_get ?_
  rw [if_pos hdef]
  exact .pure hspends

theorem namesSides_convertSide {counted : Bool} :
    NamesSides counted SettledFormula (Junctive SettledFormula) convertSide := by
  intro t atom s ht ha hpa hs
  have hplain : (sideDefinition t atom).Plain := by
    have htp := (ht.mono fun _ h => h.1).plain
    have hap := Plain.of_isAtom ha hpa.1
    simp [sideDefinition, Term.conj, imp, plain_node, htp, hap]
  unfold convertSide
  rw [if_pos hplain]
  exact ensures_convertVia_side literalClass_settledFormula refuse
    (namesConjunctions_convertConjunction literalClass_settledFormula) ht ha hpa hs

end ConvertM

open Conversion

/-- **Conversions are never nested more than three deep.** Watched as described above, the
conversion of a first-order formula comes to an end without a fault; with three levels or more, the
plain one ends in the same state; and so the formula has clauses, which are those of that state. -/
theorem convert_layered (config : Config) {t : Term} (hf : t.isFormula = true) (voc : Vocabulary) :
    ∃ t' s, ConvertM.prepared config t = .ok t' ∧
      ConvertM.convertLayered t'.universalClosure (start config voc) = .ok () s ∧
      (∀ limit, 3 ≤ limit →
        convertWithin limit t'.universalClosure (start config voc) = .ok () s) ∧
      convert config t voc = (.ok ⟨s.clauses⟩, s.vocabulary) := by
  obtain ⟨t', ht, he⟩ := ConvertM.exists_prepared.{0} config hf
  have hf' := Term.isFormula_universalClosure he.isFormula
  obtain ⟨_, s, hrun, hspends⟩ := ConvertM.ensures_convertVia_formula false
    ConvertM.namesSides_convertSide
    (ConvertM.namesConjunctions_convertConjunction Term.literalClass_settledFormula) hf'
    (show (start config voc).journal = none from rfl)
  have hlimit : ∀ limit, 3 ≤ limit →
      convertWithin limit t'.universalClosure (start config voc) = .ok () s := by
    intro limit hle
    obtain ⟨n, rfl⟩ := Nat.exists_eq_add_of_le' hle
    exact ConvertM.refines_convertLayered n _ _ _ _ hrun
  have hquiet : s.journal = none := hspends.quiet rfl
  obtain ⟨s', hconvert, rfl⟩ := exists_convert_of (P := fun s' => s' = s) ht
    ⟨(), s, hlimit nestingLimit (by decide), hquiet, rfl⟩
  exact ⟨t', s', ht, hrun, hlimit, hconvert⟩

theorem convert_layered_openExample :
    openExample.isFormula = true ∧
      ∃ t' s, ConvertM.prepared { simplify := true } openExample = .ok t' ∧
        ConvertM.convertLayered t'.universalClosure
          (start { simplify := true } openVocabulary) = .ok () s ∧
        (∀ limit, 3 ≤ limit → convertWithin limit t'.universalClosure
          (start { simplify := true } openVocabulary) = .ok () s) ∧
        convert { simplify := true } openExample openVocabulary =
          (.ok ⟨s.clauses⟩, s.vocabulary) :=
  ⟨by decide, convert_layered { simplify := true } (by decide) openVocabulary⟩

end ClauseForm
