import ClauseForm.Proofs.Semantics.Interpretation
import ClauseForm.Proofs.Syntax.Positions

/-!
# Truth depends on the free variables

Valuations that agree on the free variables of a term, under interpretations that
agree on its symbols, give it the same meaning
(`ClauseForm.Interpretation.AgreesOff.holds_iff`), so that a formula and its
universal closure are true in the same interpretations
(`ClauseForm.Interpretation.models_universalClosure`). So the list of free variables is
more than a list: what it leaves out plays no part
(`ClauseForm.freeVars_determine_holds`).
-/

universe u

namespace ClauseForm

namespace Interpretation

variable {D : Type u} {I J : Interpretation D} {p : FunSym → Prop}

/-! ### Coincidence -/

/-- The valuation that takes the values of certain variables from one valuation and those of all
others from another. -/
def splice (vars : List Var) (v w : Var → D) (x : Var) : D :=
  if x ∈ vars then v x else w x

theorem splice_of_mem {vars : List Var} {v w : Var → D} {x : Var} (h : x ∈ vars) :
    splice vars v w x = v x :=
  if_pos h

theorem splice_of_not_mem {vars : List Var} {v w : Var → D} {x : Var} (h : x ∉ vars) :
    splice vars v w x = w x :=
  if_neg h

/-- **Quantified formulas say the same** if their bodies do under valuations, one over each of the
two, that agree on what the quantifier binds. -/
theorem holds_quant_iff (q : Quantifier) {vars : List Var} {body body' : Term} {v w : Var → D}
    (h : ∀ v' w' : Var → D, (∀ x ∉ vars, v' x = v x) → (∀ x ∉ vars, w' x = w x) →
      (∀ x ∈ vars, w' x = v' x) → (J.Holds body' w' ↔ I.Holds body v')) :
    J.Holds (.quant q vars body') w ↔ I.Holds (.quant q vars body) v := by
  -- a valuation over `v` is matched by the one over `w` with the same bound values, and conversely
  have hforth : ∀ v' : Var → D, (∀ x ∉ vars, v' x = v x) →
      (J.Holds body' (splice vars v' w) ↔ I.Holds body v') := fun v' hv' =>
    h v' _ hv' (fun _ hx => splice_of_not_mem hx) fun _ hx => splice_of_mem hx
  have hback : ∀ w' : Var → D, (∀ x ∉ vars, w' x = w x) →
      (J.Holds body' w' ↔ I.Holds body (splice vars w' v)) := fun w' hw' =>
    h _ w' (fun _ hx => splice_of_not_mem hx) hw' fun _ hx => (splice_of_mem hx).symm
  cases q with
  | all =>
    rw [holds_all, holds_all]
    constructor
    · intro hw v' hv'
      exact (hforth v' hv').1 (hw _ fun x hx => splice_of_not_mem hx)
    · intro hv w' hw'
      exact (hback w' hw').2 (hv _ fun x hx => splice_of_not_mem hx)
  | exist =>
    rw [holds_exist, holds_exist]
    constructor
    · rintro ⟨w', hw', hb⟩
      exact ⟨_, fun x hx => splice_of_not_mem hx, (hback w' hw').1 hb⟩
    · rintro ⟨v', hv', hb⟩
      exact ⟨_, fun x hx => splice_of_not_mem hx, (hforth v' hv').2 hb⟩

/-- Objects stand for the same element where their symbols and variables mean the same. -/
theorem AgreesOff.denote_eq (h : I.AgreesOff p J) {t : Term} {v w : Var → D}
    (hs : ∀ f ∈ t.funs, ¬p f) (hx : ∀ x ∈ t.free, w x = v x) : J.denote w t = I.denote v t := by
  induction t using Term.induct with
  | var x => simpa using hx x (by simp)
  | const f =>
    rw [denote_const, denote_const, h.fn f (hs f (by simp))]
  | call f args ih =>
    simp only [Term.funs_call, Term.free_call, List.mem_cons, List.mem_flatMap] at hs hx
    rw [denote_call, denote_call, h.fn f (hs f (Or.inl rfl))]
    refine congrArg _ (List.map_congr_left fun a ha => ?_)
    exact ih a ha (fun g hg => hs g (Or.inr ⟨a, ha, hg⟩)) fun x hxa => hx x ⟨a, ha, hxa⟩
  | _ => simp only [denote, h.value]

/-- **Coincidence**: a formula is as true under one interpretation and valuation as under others
that agree with them on its symbols and its free variables. -/
theorem AgreesOff.holds_iff (h : I.AgreesOff p J) {t : Term} {v w : Var → D}
    (hs : ∀ f ∈ t.funs, ¬p f) (hx : ∀ x ∈ t.free, w x = v x) : J.Holds t w ↔ I.Holds t v := by
  induction t using Term.induct generalizing v w with
  | bool b => simp
  | var x => simp only [Holds, h.value, hx x (by simp)]
  | const f => simp only [holds_const, h.rel f (hs f (by simp))]
  | call f args ih =>
    simp only [Term.funs_call, Term.free_call, List.mem_cons, List.mem_flatMap] at hs hx
    have hargs : args.map (J.denote w) = args.map (I.denote v) :=
      List.map_congr_left fun a ha => h.denote_eq (fun g hg => hs g (Or.inr ⟨a, ha, hg⟩))
        fun x hxa => hx x ⟨a, ha, hxa⟩
    rw [holds_call, holds_call, h.rel f (hs f (Or.inl rfl)), hargs]
  | node op args ih =>
    simp only [Term.funs_node, Term.free_node, List.mem_flatMap] at hs hx
    have hargs : args.map (J.denote w) = args.map (I.denote v) :=
      List.map_congr_left fun a ha => h.denote_eq (fun g hg => hs g ⟨a, ha, hg⟩)
        fun x hxa => hx x ⟨a, ha, hxa⟩
    by_cases hop : op.isPredicate = true
    · rw [holds_predicate J w hop, holds_predicate I v hop, hargs]
      unfold relates
      rw [h.compares]
    · have hop : op.isPredicate = false := by simpa using hop
      exact holds_connective_congr hop (List.forall₂_same.2 fun a ha =>
        ih a ha (fun g hg => hs g ⟨a, ha, hg⟩) fun x hxa => hx x ⟨a, ha, hxa⟩)
  | quant q vars body ih =>
    rw [Term.funs_quant] at hs
    have hbody : ∀ x ∈ body.free, x ∉ vars → w x = v x := fun x hxb hxv =>
      hx x (by rw [Term.free_quant, List.mem_filter]; exact ⟨hxb, decide_eq_true hxv⟩)
    refine holds_quant_iff q fun v' w' hv' hw' hsame => ih hs fun x hxb => ?_
    by_cases hxv : x ∈ vars
    · exact hsame x hxv
    · rw [hw' x hxv, hv' x hxv, hbody x hxb hxv]
  | _ => simp only [Holds]

/-- Valuations that agree on its variables let an object stand for the same element. -/
theorem denote_congr {t : Term} {v w : Var → D} (hx : ∀ x ∈ t.free, w x = v x) :
    I.denote w t = I.denote v t :=
  (AgreesOff.refl I fun _ => False).denote_eq (fun _ _ => not_false) hx

/-- Valuations that agree on its free variables give a formula the same truth value. -/
theorem holds_congr {t : Term} {v w : Var → D} (hx : ∀ x ∈ t.free, w x = v x) :
    I.Holds t w ↔ I.Holds t v :=
  (AgreesOff.refl I fun _ => False).holds_iff (fun _ _ => not_false) hx

/-! ### The universal closure -/

/-- A formula and its universal closure are true in the same interpretations. -/
theorem models_universalClosure (t : Term) : I.Models t.universalClosure ↔ I.Models t := by
  unfold Term.universalClosure
  split
  · rfl
  · constructor
    · intro h v
      exact (holds_all I v _ t).1 (h v) v fun _ _ => rfl
    · intro h v
      exact (holds_all I v _ t).2 fun w _ => h w

end Interpretation

open Term

/-! ### The list of free variables -/

/-- **The list of free variables.** It has no variable twice; it has those variables that occur
somewhere without a quantifier around them that binds them, each at the place of its first such
occurrence from the left; the universal closure has none left; and valuations that agree on them
give the formula the same truth value. -/
theorem freeVars_determine_holds (t : Term) :
    t.freeVars.Nodup ∧ (∀ x, x ∈ t.freeVars ↔ ∃ p, t.FreeAt p x) ∧
      t.freeVars.Pairwise
        (fun x y => ∃ p, t.FreeAt p x ∧ ∀ q, t.FreeAt q y → p.LeftOf q) ∧
      t.universalClosure.freeVars = [] ∧
      ∀ {D : Type u} (I : Interpretation D) (v w : Var → D), (∀ x ∈ t.freeVars, w x = v x) →
        (I.Holds t w ↔ I.Holds t v) := by
  refine ⟨nodup_freeVars t, fun x => mem_freeVars_iff_freeAt, freeAt_pairwise_freeVars t, ?_, ?_⟩
  · refine List.eq_nil_iff_forall_not_mem.2 fun x hx => ?_
    rw [mem_freeVars, free_universalClosure] at hx
    exact List.not_mem_nil hx
  · intro D I v w h
    exact Interpretation.holds_congr fun x hx => h x (mem_freeVars.2 hx)

/-- The formula `![X]: p(X, Y) & ?[Z, Z]: (q(Z, X) | ![X]: p(X, Z)) & r(X, Z)`. -/
def reboundExample : Term :=
  .conj [.quant .all [⟨0⟩] (.call ⟨0, .declared⟩ [.var ⟨0⟩, .var ⟨1⟩]),
    .quant .exist [⟨2⟩, ⟨2⟩] (.disj [.call ⟨1, .declared⟩ [.var ⟨2⟩, .var ⟨0⟩],
      .quant .all [⟨0⟩] (.call ⟨0, .declared⟩ [.var ⟨0⟩, .var ⟨2⟩])]),
    .call ⟨2, .declared⟩ [.var ⟨0⟩, .var ⟨2⟩]]

theorem freeVars_determine_holds_reboundExample :
    reboundExample.freeVars = [⟨1⟩, ⟨0⟩, ⟨2⟩] ∧
      (∀ x, x ∈ [⟨1⟩, ⟨0⟩, ⟨2⟩] ↔ ∃ p, reboundExample.FreeAt p x) ∧
      reboundExample.universalClosure.freeVars = [] ∧
      ∀ I : Interpretation Nat,
        I.Holds reboundExample (fun x => if x.id ≤ 2 then x.id else 7) ↔
          I.Holds reboundExample (fun x => x.id) := by
  have hvars : reboundExample.freeVars = [⟨1⟩, ⟨0⟩, ⟨2⟩] := by decide
  obtain ⟨-, hmem, -, hclosed, hholds⟩ := freeVars_determine_holds.{0} reboundExample
  refine ⟨hvars, hvars ▸ hmem, hclosed, fun I => hholds I _ _ ?_⟩
  rw [hvars]
  decide

end ClauseForm
