import Mathlib.Algebra.BigOperators.Group.Finset.Piecewise
import Mathlib.Data.Fintype.Basic
import ClauseForm.Proofs.Conversion.Ledger
import ClauseForm.Proofs.Conversion.Mirrored
import ClauseForm.Proofs.Syntax.Renumbering

/-!
# Several conversions woven into one

Several conversions, each with a vocabulary of its own, are at work, in turns, and one more
conversion does what they do, whichever of them it is that goes on. Of the one it can be said
at any time what it has made of the others (`ClauseForm.Conversion.Woven`): the numbers of their
new symbols are merged, and it has gathered their clauses, as a multiset, with the numbers of
their symbols exchanged.

This stays so when one of the conversions takes a step that the one mirrors
(`ClauseForm.Conversion.Woven.exists_step`), and hence when several of them do, one after the
other (`ClauseForm.Conversion.Woven.exists_mapM`). What the others have come to in the meantime is
not changed by that: only numbers that they will give are exchanged in another way.
-/

namespace ClauseForm

open ConvertM Term

namespace Numbering

variable {voc voc' : Vocabulary}

/-- The numbering that goes on from the one vocabulary as from the other. -/
def carry (n : Numbering) (voc voc' : Vocabulary) : Numbering :=
  ⟨carryOn n.var voc.vars.size voc'.vars.size, carryOn n.fn voc.funs.size voc'.funs.size⟩

theorem agreesOn_carry (n : Numbering) : n.AgreesOn (n.carry voc voc') voc :=
  ⟨fun _ hk => (carryOn_of_lt hk).symm, fun _ hk => (carryOn_of_lt hk).symm⟩

end Numbering

/-- What a vocabulary has given, a later one has. -/
theorem Numbering.AgreesOn.mono {n n' : Numbering} {voc voc' : Vocabulary}
    (h : n.AgreesOn n' voc') (hle : voc.Extends voc') : n.AgreesOn n' voc :=
  ⟨fun k hk => h.var k (Nat.lt_of_lt_of_le hk hle.vars_le),
    fun k hk => h.fn k (Nat.lt_of_lt_of_le hk hle.funs_le)⟩

/-- The numbers that are given later do not matter to what becomes of a term. -/
theorem Term.HeldBy.twin {n n' : Numbering} {voc : Vocabulary} {t : Term} (h : t.HeldBy voc)
    (hn : n.AgreesOn n' voc) {hv : Function.Injective n'.var} {hf : Function.Injective n'.fn} :
    Twin (n'.relabeling hv hf) t (t.renumber n) :=
  ⟨h.renumber_eq hn, h.quantifierFree, h.keepsArities⟩

namespace Conversion

/-- From one state to another, symbols were allotted, and clauses over them gathered, by the same
choices. -/
structure Goes (s s' : Conversion) : Prop where
  config : s'.config = s.config
  vocabulary : s.vocabulary.Extends s'.vocabulary
  held : ∀ c ∈ s'.clauses, c ∈ s.clauses ∨ c.HeldBy s'.vocabulary

variable {ι : Type} {base : ι → Vocabulary} {first : Vocabulary}
variable {n : ι → Numbering} {s : ι → Conversion} {j : Conversion}

/-- The conversion `j`, begun with the vocabulary `first`, has come as far as the conversions `s i`
together, which were begun with the vocabularies `base i`. The numbering `n i` tells what it has in
the place of the symbols of `s i`. -/
structure Woven [Fintype ι] (base : ι → Vocabulary) (first : Vocabulary) (n : ι → Numbering)
    (s : ι → Conversion) (j : Conversion) : Prop where
  plain : ∀ i, (s i).config.simplify = false
  plain_joint : j.config.simplify = false
  held : ∀ i, ∀ c ∈ (s i).clauses, c.HeldBy (s i).vocabulary
  vars : Merges (fun i => (base i).vars.size) (fun i => (s i).vocabulary.vars.size)
    first.vars.size j.vocabulary.vars.size fun i => (n i).var
  funs : Merges (fun i => (base i).funs.size) (fun i => (s i).vocabulary.funs.size)
    first.funs.size j.vocabulary.funs.size fun i => (n i).fn
  clauses : (j.clauses : Multiset Clause) =
    ∑ i, ((s i).clauses.map (Clause.renumber (n i)) : Multiset Clause)

namespace Woven

variable [Fintype ι]

/-- The conversions are about to begin. -/
theorem start (hv : ∀ i, (base i).vars.size ≤ first.vars.size)
    (hf : ∀ i, (base i).funs.size ≤ first.funs.size) :
    Woven base first (fun _ => ⟨id, id⟩) (fun i => start {} (base i)) (start {} first) where
  plain _ := rfl
  plain_joint := rfl
  held := by simp [Conversion.start]
  vars := .init hv
  funs := .init hf
  clauses := by simp [Conversion.start]

variable [DecidableEq ι]

/-- What all have gathered, when one of them has gathered more. -/
theorem sum_clauses_update {i : ι} {n' : Numbering} {s' : Conversion} {cs : List Clause}
    (hheld : ∀ c ∈ (s i).clauses, c.HeldBy (s i).vocabulary)
    (hagrees : (n i).AgreesOn n' (s i).vocabulary) (hcs : s'.clauses = (s i).clauses ++ cs) :
    ∑ k, ((Function.update s i s' k).clauses.map
        (Clause.renumber (Function.update n i n' k)) : Multiset Clause) =
      ∑ k, ((s k).clauses.map (Clause.renumber (n k)) : Multiset Clause) +
        (cs.map (Clause.renumber n') : Multiset Clause) := by
  have hold : (s i).clauses.map (Clause.renumber n') =
      (s i).clauses.map (Clause.renumber (n i)) :=
    List.map_congr_left fun c hc => ((hheld c hc).renumber_eq hagrees).symm
  have hterm : ∀ k, ((Function.update s i s' k).clauses.map
      (Clause.renumber (Function.update n i n' k)) : Multiset Clause) =
        (s k).clauses.map (Clause.renumber (n k)) +
          if k = i then (cs.map (Clause.renumber n') : Multiset Clause) else 0 := by
    intro k
    by_cases hk : k = i
    · subst hk
      rw [Function.update_self, Function.update_self, if_pos rfl, hcs, List.map_append,
        ← Multiset.coe_add, hold]
    · rw [Function.update_of_ne hk, Function.update_of_ne hk, if_neg hk, add_zero]
  rw [Finset.sum_congr rfl fun k _ => hterm k, Finset.sum_add_distrib, Finset.sum_ite_eq',
    if_pos (Finset.mem_univ i)]

/-- **A step of one of the conversions that is mirrored leaves them woven**, and the answer is
renumbered as the clauses are. -/
theorem exists_step (h : Woven base first n s j) (i : ι) {x y : ConvertM Term} {a : Term}
    {s' : Conversion} (hrun : x (s i) = .ok a s') (hgoes : Goes (s i) s')
    (hmirror : ∀ (n' : Numbering) hv hf, (n i).AgreesOn n' (s i).vocabulary →
      Mirrors (n'.relabeling hv hf) (Twin (n'.relabeling hv hf)) x y) :
    ∃ j' n', y j = .ok (a.renumber n') j' ∧ (n i).AgreesOn n' (s i).vocabulary ∧
      Woven base first (Function.update n i n') (Function.update s i s') j' := by
  let n' := (n i).carry (s i).vocabulary j.vocabulary
  have hagrees : (n i).AgreesOn n' (s i).vocabulary := (n i).agreesOn_carry
  have hv : Function.Injective n'.var := h.vars.injective_carryOn i
  have hf : Function.Injective n'.fn := h.funs.injective_carryOn i
  have halike : Alike (n'.relabeling hv hf) (s i) j :=
    ⟨h.plain_joint.trans (h.plain i).symm, fun k => congrArg Var.mk (carryOn_add ..),
      fun k o => congrArg (FunSym.mk · o) (carryOn_add ..)⟩
  obtain ⟨_, j', hrun', htwin, halike', cs, hcs, hcs'⟩ :=
    hmirror n' hv hf hagrees (s i) j a s' halike hrun
  obtain rfl := htwin.eq
  have hplain : s'.config.simplify = false := hgoes.config ▸ h.plain i
  have hvle := hgoes.vocabulary.vars_le
  have hfle := hgoes.vocabulary.funs_le
  -- as many symbols were allotted here as there
  have hvars : j'.vocabulary.vars.size = j.vocabulary.vars.size +
      (s'.vocabulary.vars.size - (s i).vocabulary.vars.size) :=
    (congrArg Var.id (halike'.vars 0)).symm.trans (carryOn_of_le hvle)
  have hfuns : j'.vocabulary.funs.size = j.vocabulary.funs.size +
      (s'.vocabulary.funs.size - (s i).vocabulary.funs.size) :=
    (congrArg FunSym.id (halike'.funs 0 .skolem)).symm.trans (carryOn_of_le hfle)
  refine ⟨j', n', hrun', hagrees, ⟨?_, halike'.simplify.trans hplain, ?_, ?_, ?_, ?_⟩⟩
  · exact (Function.forall_update_iff s fun _ r => r.config.simplify = false).2
      ⟨hplain, fun k _ => h.plain k⟩
  · refine (Function.forall_update_iff s fun _ r => ∀ c ∈ r.clauses, c.HeldBy r.vocabulary).2
      ⟨fun c hc => ?_, fun k _ => h.held k⟩
    exact (hgoes.held c hc).elim (fun hc => (h.held i c hc).mono hvle hfle) id
  · have hmerges := h.vars.advance i (s'.vocabulary.vars.size - (s i).vocabulary.vars.size)
    rw [Nat.add_sub_cancel' hvle, ← hvars] at hmerges
    simp only [Function.apply_update (fun _ (r : Conversion) => r.vocabulary.vars.size),
      Function.apply_update (fun _ => Numbering.var)]
    exact hmerges
  · have hmerges := h.funs.advance i (s'.vocabulary.funs.size - (s i).vocabulary.funs.size)
    rw [Nat.add_sub_cancel' hfle, ← hfuns] at hmerges
    simp only [Function.apply_update (fun _ (r : Conversion) => r.vocabulary.funs.size),
      Function.apply_update (fun _ => Numbering.fn)]
    exact hmerges
  · rw [hcs', ← Multiset.coe_add, h.clauses, sum_clauses_update (h.held i) hagrees hcs]
    rfl

/-- **Steps of several of them, one after the other, leave them woven**, whatever the order. The
answers are renumbered as the clauses are, and what the conversions came to before keeps its
place. -/
theorem exists_mapM {x y : ι → ConvertM Term} {a : ι → Term} {s' : ι → Conversion} {is : List ι}
    (hnodup : is.Nodup) (h : Woven base first n s j)
    (hrun : ∀ i ∈ is, x i (s i) = .ok (a i) (s' i))
    (hgoes : ∀ i ∈ is, Goes (s i) (s' i)) (ha : ∀ i ∈ is, (a i).HeldBy (s' i).vocabulary)
    (hmirror : ∀ i ∈ is, ∀ (n' : Numbering) hv hf, (n i).AgreesOn n' (s i).vocabulary →
      Mirrors (n'.relabeling hv hf) (Twin (n'.relabeling hv hf)) (x i) (y i)) :
    ∃ j' n', is.mapM y j = .ok (is.map fun i => (a i).renumber (n' i)) j' ∧
      (∀ i, (n i).AgreesOn (n' i) (s i).vocabulary) ∧
      Woven base first n' (fun i => if i ∈ is then s' i else s i) j' := by
  induction is generalizing n s j with
  | nil => exact ⟨j, n, rfl, fun i => .refl _ _, by simpa using h⟩
  | cons i is ih =>
    obtain ⟨hi, hnodup⟩ := List.nodup_cons.1 hnodup
    rw [List.forall_mem_cons] at hrun hgoes ha hmirror
    obtain ⟨j₁, n₁, hrun₁, hagrees₁, hwoven₁⟩ := h.exists_step i hrun.1 hgoes.1 hmirror.1
    -- the others have waited
    have hs : ∀ k ∈ is, Function.update s i (s' i) k = s k := fun k hk =>
      Function.update_of_ne (ne_of_mem_of_not_mem hk hi) _ _
    have hn : ∀ k ∈ is, Function.update n i n₁ k = n k := fun k hk =>
      Function.update_of_ne (ne_of_mem_of_not_mem hk hi) _ _
    obtain ⟨j', n', hrun', hagrees', hwoven'⟩ := ih hnodup hwoven₁
      (fun k hk => by rw [hs k hk]; exact hrun.2 k hk)
      (fun k hk => by rw [hs k hk]; exact hgoes.2 k hk) ha.2
      (fun k hk => by rw [hs k hk, hn k hk]; exact hmirror.2 k hk)
    have hfirst : (a i).renumber n₁ = (a i).renumber (n' i) := by
      have hagrees := hagrees' i
      rw [Function.update_self, Function.update_self] at hagrees
      exact ha.1.renumber_eq hagrees
    refine ⟨j', n', ?_, fun k => ?_, ?_⟩
    · rw [List.mapM_cons, List.map_cons, ← hfirst]
      exact bind_eq_ok.2 ⟨_, j₁, hrun₁, bind_eq_ok.2 ⟨_, j', hrun', rfl⟩⟩
    · by_cases hk : k = i
      · subst hk
        have hagrees := hagrees' k
        rw [Function.update_self, Function.update_self] at hagrees
        exact hagrees₁.trans (hagrees.mono hgoes.1.vocabulary)
      · have hagrees := hagrees' k
        rwa [Function.update_of_ne hk, Function.update_of_ne hk] at hagrees
    · have hstates : (fun k => if k ∈ i :: is then s' k else s k) =
          fun k => if k ∈ is then s' k else Function.update s i (s' i) k := by
        funext k
        by_cases hk : k = i
        · subst hk
          simp [hi]
        · simp [hk]
      rwa [hstates]

end Woven

end Conversion

end ClauseForm
