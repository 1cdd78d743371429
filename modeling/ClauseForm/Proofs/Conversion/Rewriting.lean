import ClauseForm.Proofs.Conversion.Run
import ClauseForm.Proofs.Semantics.Coincidence

/-!
# What a step of a conversion says

A step that adds clauses to a conversion *asserts* a formula
(`ClauseForm.Conversion.Asserts`) if the clauses imply it, and if every interpretation in
which it is true can be changed, on the symbols that the step minted, into one that
satisfies the clauses. A step that replaces formulas by others, with the help of
symbols that it defines, *rewrites* them (`ClauseForm.Conversion.Rewrites`) if the clauses
let every new formula imply the old one, and if the symbols can be given a meaning
under which the two are as true.

Where a formula stands positively, no more is needed: the clauses need not say
that the old formula implies the new one. Below a biconditional they have to, and
then the rewriting is called exact.

Both notions are kept by putting steps one after the other, which is how the
theorems about single steps make one about a whole conversion.
-/

universe u

namespace ClauseForm

open Interpretation

/-! ### Implication one way or both -/

/-- Conjunction and disjunction are monotone. -/
theorem Op.connects_mono {op : Op} (hop : op = .and ∨ op = .or) {ps qs : List Prop}
    (h : List.Forall₂ (fun p q => p → q) ps qs) : op.connects ps → op.connects qs := by
  rcases hop with rfl | rfl
  · induction h with
    | nil => exact id
    | cons hd _ ih =>
      simp only [Op.connects, List.forall_mem_cons] at ih ⊢
      exact And.imp hd ih
  · induction h with
    | nil => exact id
    | cons hd _ ih =>
      simp only [Op.connects, List.exists_mem_cons_iff] at ih ⊢
      exact Or.imp hd ih

/-- Conjunction and disjunction are connectives. -/
theorem Op.isPredicate_junction {op : Op} (hop : op = .and ∨ op = .or) :
    op.isPredicate = false := by
  rcases hop with rfl | rfl
  · rfl
  · rfl

/-- The new statement implies the old one, and, if the rewriting is exact, the other way round. -/
def Upholds (exact : Bool) (new old : Prop) : Prop :=
  (new → old) ∧ (exact = true → old → new)

namespace Upholds

variable {exact : Bool} {p q r : Prop}

theorem of_iff (h : p ↔ q) : Upholds exact p q :=
  ⟨h.1, fun _ => h.2⟩

theorem trans (h : Upholds exact p q) (h' : Upholds exact q r) : Upholds exact p r :=
  ⟨h'.1 ∘ h.1, fun he => h.2 he ∘ h'.2 he⟩

theorem iff (h : Upholds true p q) : p ↔ q :=
  ⟨h.1, h.2 rfl⟩

/-- What is made of the new statements by a conjunction or disjunction implies what is made of the
old ones. -/
theorem connects {op : Op} (hop : op = .and ∨ op = .or) {P P' : Term → Prop} {ts ts' : List Term}
    (h : List.Forall₂ (fun t t' => Upholds exact (P' t') (P t)) ts ts') :
    Upholds exact (op.connects (ts'.map P')) (op.connects (ts.map P)) := by
  refine ⟨Op.connects_mono hop ?_, fun he => Op.connects_mono hop ?_⟩
  · rw [List.forall₂_map_left_iff, List.forall₂_map_right_iff]
    exact (h.imp fun _ _ hd => hd.1).flip
  · rw [List.forall₂_map_left_iff, List.forall₂_map_right_iff]
    exact h.imp fun _ _ hd => hd.2 he

end Upholds

namespace Interpretation

variable {D : Type u} {I J : Interpretation D} {before after : Vocabulary}

/-- What symbols minted later mean does not matter to a formula. -/
theorem AgreesOff.holds_within {t : Term} (h : I.AgreesOff (before.Minted after) J)
    (ht : t.Within before) (v : Var → D) : J.Holds t v ↔ I.Holds t v :=
  h.holds_iff ht.not_minted fun _ _ => rfl

/-- What symbols minted later mean does not matter to the clauses gathered before. -/
theorem AgreesOff.satisfies {s s' : Conversion} (hs : s.Ready)
    (h : I.AgreesOff (s.vocabulary.Minted s'.vocabulary) J) (hI : I.Satisfies s.clauses) :
    J.Satisfies s.clauses := by
  intro c hc v
  obtain ⟨l, hl, hv⟩ := hI c hc v
  exact ⟨l, hl, (h.holds_within (hs.within c hc l hl) v).2 hv⟩

/-- Fewer clauses are satisfied more easily. -/
theorem Satisfies.mono {cs ds : List Clause} (h : I.Satisfies ds) (hcd : cs <+: ds) :
    I.Satisfies cs :=
  fun c hc => h c (hcd.subset hc)

end Interpretation

/-- What is minted in part of the time is minted in all of it. -/
theorem Vocabulary.Minted.mono {before after first last : Vocabulary} {f : FunSym}
    (h : before.Minted after f) (hf : first.funs.size ≤ before.funs.size)
    (hl : after.funs.size ≤ last.funs.size) : first.Minted last f :=
  ⟨Nat.le_trans hf h.1, Nat.lt_of_lt_of_le h.2.1 hl, h.2.2⟩

/-- What changes in one stage and in the next is minted in the two together. -/
theorem Interpretation.AgreesOff.trans_minted {D : Type u} {I J K : Interpretation D}
    {first middle last : Vocabulary} (h : I.AgreesOff (first.Minted middle) J)
    (h' : J.AgreesOff (middle.Minted last) K) (hf : first.funs.size ≤ middle.funs.size)
    (hl : middle.funs.size ≤ last.funs.size) : I.AgreesOff (first.Minted last) K := by
  refine AgreesOff.trans (h.mono ?_) (h'.mono ?_)
  · exact fun f hminted => hminted.mono (Nat.le_refl _) hl
  · exact fun f hminted => hminted.mono hf (Nat.le_refl _)

namespace Conversion

/-! ### Steps that assert a formula -/

/-- The step from one state to another adds clauses that say what a formula says: they imply it,
and where it is true, the symbols minted on the way can be given a meaning that makes them true. -/
structure Asserts (D : Type u) (t : Term) (s s' : Conversion) : Prop where
  grows : s.Grows s'
  ready : s'.Ready
  sound : ∀ I : Interpretation D, I.Satisfies s'.clauses → I.Models t
  complete : ∀ I : Interpretation D, I.Satisfies s.clauses → I.Models t →
    ∃ J, I.AgreesOff (s.vocabulary.Minted s'.vocabulary) J ∧ J.Satisfies s'.clauses

/-! ### Steps that rewrite formulas -/

/-- The step from one state to another replaces formulas, one by one: by the clauses that are there
in the end, the new ones imply the old ones, or are equivalent to them if the step is exact; and the
symbols minted on the way can be given a meaning that makes the clauses true and the formulas
equivalent. -/
structure Rewrites (D : Type u) (exact : Bool) (ts ts' : List Term) (s s' : Conversion) :
    Prop where
  grows : s.Grows s'
  ready : s'.Ready
  within : ∀ t ∈ ts', t.Within s'.vocabulary
  sound : ∀ I : Interpretation D, I.Satisfies s'.clauses → ∀ v,
    List.Forall₂ (fun t t' => Upholds exact (I.Holds t' v) (I.Holds t v)) ts ts'
  complete : ∀ I : Interpretation D, I.Satisfies s.clauses →
    ∃ J, I.AgreesOff (s.vocabulary.Minted s'.vocabulary) J ∧ J.Satisfies s'.clauses ∧
      ∀ v, List.Forall₂ (fun t t' => I.Holds t v ↔ J.Holds t' v) ts ts'

namespace Rewrites

variable {D : Type u} {exact : Bool} {ts ts' ts'' : List Term} {t t' : Term}
variable {s s' s'' : Conversion}

theorem nil (hs : s.Ready) : Rewrites D exact [] [] s s :=
  ⟨.refl s, hs, by simp, fun _ _ _ => .nil, fun I hI => ⟨I, .refl I _, hI, fun _ => .nil⟩⟩

/-- Replacing a formula by one that says the same takes no clauses. -/
theorem of_iff (hs : s.Ready) (hw : t'.Within s.vocabulary)
    (h : ∀ (I : Interpretation D) v, I.Holds t' v ↔ I.Holds t v) :
    Rewrites D exact [t] [t'] s s :=
  ⟨.refl s, hs, by simpa using hw, fun I _ v => .cons (.of_iff (h I v)) .nil,
    fun I hI => ⟨I, .refl I _, hI, fun v => .cons (h I v).symm .nil⟩⟩

/-- Leaving a formula as it is. -/
theorem same (hs : s.Ready) (hw : t.Within s.vocabulary) : Rewrites D exact [t] [t] s s :=
  of_iff hs hw fun _ _ => Iff.rfl

/-- Rewriting one formula, and then the others. -/
theorem cons (hw : ∀ t ∈ ts, t.Within s.vocabulary) (h : Rewrites D exact [t] [t'] s s')
    (h' : Rewrites D exact ts ts' s' s'') : Rewrites D exact (t :: ts) (t' :: ts') s s'' := by
  have hw' : t'.Within s'.vocabulary := h.within t' List.mem_cons_self
  refine ⟨h.grows.trans h'.grows, h'.ready, ?_, ?_, ?_⟩
  · rw [List.forall_mem_cons]
    exact ⟨hw'.mono h'.grows.funs, h'.within⟩
  · intro I hI v
    obtain ⟨hd, -⟩ := List.forall₂_cons.1 (h.sound I (hI.mono h'.grows.clauses) v)
    exact .cons hd (h'.sound I hI v)
  · intro I hI
    obtain ⟨J, hIJ, hJ, hd⟩ := h.complete I hI
    obtain ⟨K, hJK, hK, htl⟩ := h'.complete J hJ
    refine ⟨K, hIJ.trans_minted hJK h.grows.funs h'.grows.funs, hK, fun v => ?_⟩
    -- the first formula keeps its truth value in the second half, the others in the first half
    refine .cons ?_ ?_
    · exact (List.forall₂_cons.1 (hd v)).1.trans (hJK.holds_within hw' v).symm
    · have hold : List.Forall₂ (fun t t' => J.Holds t v ↔ K.Holds t' v) ts ts' := htl v
      rw [List.forall₂_iff_get] at hold ⊢
      refine ⟨hold.1, fun i hi hi' => ?_⟩
      exact (hIJ.holds_within (hw _ (List.get_mem ts ⟨i, hi⟩)) v).symm.trans (hold.2 i hi hi')

/-- One rewriting after the other. -/
theorem trans (h : Rewrites D exact ts ts' s s') (h' : Rewrites D exact ts' ts'' s' s'') :
    Rewrites D exact ts ts'' s s'' := by
  refine ⟨h.grows.trans h'.grows, h'.ready, h'.within, ?_, ?_⟩
  · intro I hI v
    have hfirst := h.sound I (hI.mono h'.grows.clauses) v
    have hsecond := h'.sound I hI v
    rw [List.forall₂_iff_get] at hfirst hsecond ⊢
    exact ⟨hfirst.1.trans hsecond.1, fun i hi hi' =>
      (hsecond.2 i (hfirst.1 ▸ hi) hi').trans (hfirst.2 i hi (hfirst.1 ▸ hi))⟩
  · intro I hI
    obtain ⟨J, hIJ, hJ, hfirst⟩ := h.complete I hI
    obtain ⟨K, hJK, hK, hsecond⟩ := h'.complete J hJ
    refine ⟨K, hIJ.trans_minted hJK h.grows.funs h'.grows.funs, hK, fun v => ?_⟩
    have hfirst := hfirst v
    have hsecond := hsecond v
    rw [List.forall₂_iff_get] at hfirst hsecond ⊢
    exact ⟨hfirst.1.trans hsecond.1, fun i hi hi' =>
      (hfirst.2 i hi (hfirst.1 ▸ hi)).trans (hsecond.2 i (hfirst.1 ▸ hi) hi')⟩

/-- What is rewritten below a connective, exactly, makes an exact rewriting of the whole. -/
theorem connective {op : Op} (hop : op.isPredicate = false) (h : Rewrites D true ts ts' s s') :
    Rewrites D true [.node op ts] [.node op ts'] s s' := by
  refine ⟨h.grows, h.ready, by simpa [Term.within_node] using h.within, ?_, ?_⟩
  · intro I hI v
    have hsame := (h.sound I hI v).imp fun _ _ h => h.iff.symm
    exact .cons (.of_iff (holds_connective_congr hop hsame).symm) .nil
  · intro I hI
    obtain ⟨J, hIJ, hJ, hsame⟩ := h.complete I hI
    exact ⟨J, hIJ, hJ, fun v => .cons (holds_connective_congr hop (hsame v)) .nil⟩

/-- What is rewritten below a conjunction or disjunction makes a rewriting of the whole. -/
theorem junction {op : Op} (hop : op = .and ∨ op = .or) (h : Rewrites D exact ts ts' s s') :
    Rewrites D exact [.node op ts] [.node op ts'] s s' := by
  have hpred := Op.isPredicate_junction hop
  refine ⟨h.grows, h.ready, by simpa [Term.within_node] using h.within, ?_, ?_⟩
  · intro I hI v
    refine .cons ?_ .nil
    rw [holds_connective I v hpred, holds_connective I v hpred]
    exact Upholds.connects hop (h.sound I hI v)
  · intro I hI
    obtain ⟨J, hIJ, hJ, hsame⟩ := h.complete I hI
    exact ⟨J, hIJ, hJ, fun v => .cons (holds_connective_congr hpred (hsame v)) .nil⟩

/-- Rewriting a formula and then asserting what it became asserts the formula. -/
theorem asserts (h : Rewrites D exact [t] [t'] s s') (h' : Asserts D t' s' s'') :
    Asserts D t s s'' := by
  refine ⟨h.grows.trans h'.grows, h'.ready, ?_, ?_⟩
  · intro I hI v
    obtain ⟨hd, -⟩ := List.forall₂_cons.1 (h.sound I (hI.mono h'.grows.clauses) v)
    exact hd.1 (h'.sound I hI v)
  · intro I hI ht
    obtain ⟨J, hIJ, hJ, hsame⟩ := h.complete I hI
    obtain ⟨K, hJK, hK⟩ := h'.complete J hJ fun v => (List.forall₂_cons.1 (hsame v)).1.1 (ht v)
    exact ⟨K, hIJ.trans_minted hJK h.grows.funs h'.grows.funs, hK⟩

end Rewrites

end Conversion

namespace ConvertM.Ensures

open Conversion

/-- Rewriting formulas one after the other, each in a way that keeps some property of what comes
out. -/
theorem mapM (D : Type u) (exact : Bool) {f : Term → ConvertM Term} {Q : Term → Prop}
    {ts : List Term} {s : Conversion} (hs : s.Ready) (hw : ∀ t ∈ ts, t.Within s.vocabulary)
    (h : ∀ t ∈ ts, ∀ s : Conversion, s.Ready → t.Within s.vocabulary →
      Ensures (f t) s fun t' s' => Rewrites D exact [t] [t'] s s' ∧ Q t') :
    Ensures (ts.mapM f) s fun ts' s' => Rewrites D exact ts ts' s s' ∧ ∀ t ∈ ts', Q t := by
  induction ts generalizing s with
  | nil => exact pure ⟨.nil hs, by simp⟩
  | cons t ts ih =>
    rw [List.forall_mem_cons] at hw
    rw [List.mapM_cons]
    refine bind (h t List.mem_cons_self s hs hw.1) ?_
    rintro t' s₁ ⟨hd, hQ⟩
    refine bind (ih hd.ready (fun a ha => (hw.2 a ha).mono hd.grows.funs)
      fun a ha => h a (List.mem_cons_of_mem t ha)) ?_
    rintro ts' s₂ ⟨htl, hQs⟩
    exact pure ⟨.cons hw.2 hd htl, List.forall_mem_cons.2 ⟨hQ, hQs⟩⟩

end ConvertM.Ensures

end ClauseForm
