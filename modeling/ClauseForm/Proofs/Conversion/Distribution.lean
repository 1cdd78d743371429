import ClauseForm.Proofs.Conversion.Biconditional
import ClauseForm.Proofs.Conversion.Flattening

/-!
# Raising conjunctions

Raising the conjunctions of a formula made of literals rewrites it
(`ClauseForm.ConvertM.ensures_raiseAnds`). The rewriting is not exact: the definition of
a conjunction's name says only that the name implies the conjunction
(`ClauseForm.Term.DefinesConjunction`), which is enough since nothing stands under a
negation any more.

Where the conjunctions are on top already, nothing happens
(`ClauseForm.ConvertM.raiseAnds_eq_pure`), and where only one member of a
disjunction is a conjunction, nothing is named
(`ClauseForm.ConvertM.disjoin_eq_distribute`). So the definition of a name needs no name.
-/

universe u

namespace ClauseForm

namespace Term

/-- The formula defines an atom as the name of a conjunction of disjunctions of literals. -/
def DefinesConjunction (t : Term) : Prop :=
  ∃ c atom, c.isOp .and = true ∧ Raised (·.isFormula = true) c ∧ atom.isAtom = true ∧
    atom.isFormula = true ∧ t = imp atom c

end Term

namespace ConvertM

open Conversion Interpretation Term

variable {D : Type u} {define : Term → ConvertM Unit} {p : Term → Prop} {s : Conversion}
variable {t : Term} {args : List Term}

theorem raiseAndsAll_eq_mapM (define : Term → ConvertM Unit) (ts : List Term) :
    raiseAndsAll define ts = ts.mapM (raiseAnds define) := by
  induction ts with
  | nil => rfl
  | cons t ts ih => rw [raiseAndsAll, ih, List.mapM_cons]

/-- A literal stays as it is. -/
theorem raiseAnds_of_isLiteral (define : Term → ConvertM Unit) (h : t.isLiteral = true) :
    raiseAnds define t = pure t := by
  obtain ⟨a, sign, ha, rfl⟩ := exists_of_isLiteral h
  cases sign
  · rfl
  · cases a with
    | node op args => cases op <;> simp_all [isAtom, Op.isPredicate, Task.literal, raiseAnds]
    | _ => rfl

/-- Only operators are looked into. -/
theorem raiseAnds_of_op?_eq_none (define : Term → ConvertM Unit) (h : t.op? = none) :
    raiseAnds define t = pure t := by
  cases t <;> first | rfl | simp [op?] at h

/-! ### Disjunctions -/

/-- A disjunction without conjunctions among its members stays as it is. -/
theorem disjoin_eq_pure (define : Term → ConvertM Unit)
    (h : ∀ a ∈ args, a.isOp .and = false) : disjoin define args = pure (.disj args) := by
  have hcount : args.countP (·.isOp .and) = 0 := List.countP_eq_zero.2 (by simpa using h)
  have hfind : args.findFinIdx? (·.isOp .and) = none :=
    List.findFinIdx?_eq_none_iff.2 (by simpa using h)
  rw [disjoin, if_pos (by omega), hfind]

/-- Among members of which at most one is a conjunction, the others are none. -/
theorem isOp_and_of_countP (h : args.countP (·.isOp .and) ≤ 1) {i j : Fin args.length}
    (hi : (args.get i).isOp .and = true) (hji : j ≠ i) : (args.get j).isOp .and = false := by
  rw [← Bool.not_eq_true]
  intro hj
  -- two places would make a sublist of two conjunctions
  have htwo : ∀ {i j : Fin args.length}, i < j → args[i].isOp .and = true →
      args[j].isOp .and = true → False := by
    intro i j hij hi hj
    have hsplit : args = args.take i ++ args[i] :: args.drop (i + 1) := by simp
    have hmem : args[j] ∈ args.drop (i + 1) :=
      List.mem_drop_iff_getElem.2 ⟨j - (i + 1), by omega, by
        simp only [Fin.getElem_fin]
        congr 1
        omega⟩
    have hpos : 0 < (args.drop (i + 1)).countP (·.isOp .and) := List.countP_pos_iff.2 ⟨_, hmem, hj⟩
    rw [hsplit, List.countP_append, List.countP_cons, if_pos hi] at h
    omega
  rcases Nat.lt_or_gt_of_ne (Fin.val_ne_of_ne hji) with hlt | hgt
  · exact htwo hlt hj hi
  · exact htwo hgt hi hj

/-- A disjunction with one conjunction among its members is distributed over it. -/
theorem disjoin_eq_distribute (define : Term → ConvertM Unit)
    (h : args.countP (·.isOp .and) ≤ 1) {i : Fin args.length}
    (hi : (args.get i).isOp .and = true) : disjoin define args = pure (.distribute args i) := by
  rw [disjoin, if_pos h]
  split
  · rename_i hnone
    rw [List.findFinIdx?_eq_none_iff] at hnone
    exact absurd hi (by simpa using hnone _ (List.get_mem args i))
  · rename_i j hsome
    -- the first conjunction is the only one
    have hj : args[j].isOp .and = true := (List.findFinIdx?_eq_some_iff.1 hsome).1
    obtain rfl : j = i := by
      by_contra hne
      exact absurd hj (by simpa using isOp_and_of_countP h hi hne)
    rfl

/-- A disjunction with several conjunctions among its members gets names for them. -/
theorem disjoin_eq_mapM (define : Term → ConvertM Unit) (h : 1 < args.countP (·.isOp .and)) :
    disjoin define args = (do return .disj (← args.mapM (nameConjunction define))) := by
  rw [disjoin, if_neg (by omega)]

/-- How many conjunctions there can be among the members of a disjunction: none, one, or more. -/
theorem isOp_and_cases (args : List Term) :
    (∀ a ∈ args, a.isOp .and = false) ∨
      (args.countP (·.isOp .and) ≤ 1 ∧ ∃ i : Fin args.length, (args.get i).isOp .and = true) ∨
      1 < args.countP (·.isOp .and) := by
  by_cases hcount : args.countP (·.isOp .and) ≤ 1
  · by_cases hany : ∃ a ∈ args, a.isOp .and = true
    · obtain ⟨a, ha, hand⟩ := hany
      obtain ⟨i, rfl⟩ := List.mem_iff_get.1 ha
      exact Or.inr (Or.inl ⟨hcount, i, hand⟩)
    · exact Or.inl fun a ha => by simpa using fun hand => hany ⟨a, ha, hand⟩
  · exact Or.inr (Or.inr (by omega))

/-- Disjunctions of literals stay as they are. -/
theorem raiseAnds_of_disjunctive (define : Term → ConvertM Unit) (h : Disjunctive p t) :
    raiseAnds define t = pure t := by
  induction h with
  | literal hl _ => exact raiseAnds_of_isLiteral define hl
  | disj hargs ih =>
    rw [raiseAnds, raiseAndsAll_eq_mapM, mapM_eq_pure ih, pure_bind]
    exact disjoin_eq_pure define fun a ha => (hargs a ha).isOp_and

/-- **Where the conjunctions are on top, nothing happens.** -/
theorem raiseAnds_eq_pure (define : Term → ConvertM Unit) (h : Raised p t) :
    raiseAnds define t = pure t := by
  induction h with
  | clause h => exact raiseAnds_of_disjunctive define h
  | conj _ ih =>
    rw [raiseAnds, raiseAndsAll_eq_mapM, mapM_eq_pure ih, pure_bind]
    rfl

/-- A conjunction is rewritten by its name, and everything else by itself. -/
theorem ensures_nameConjunction (hdefine : Defines D define DefinesConjunction) (hs : s.Ready)
    (hw : t.Within s.vocabulary) (ht : Raised (·.isFormula = true) t) :
    Ensures (nameConjunction define t) s fun t' s' =>
      Rewrites D false [t] [t'] s s' ∧ Disjunctive (·.isFormula = true) t' := by
  unfold nameConjunction
  split
  · rename_i hand
    refine (ensures_named (imp · t) hs hw hdefine
      (fun atom ha hf => ⟨t, atom, hand, ht, ha, hf, rfl⟩) ?_ ?_ ?_).mono
      fun l s' h => ⟨h.1, .literal (isLiteral_literal h.2.1 true) h.2.2⟩
    · intro atom voc ha ht
      simp [imp, within_node, ht, ha]
    · intro I atom v h
      exact ⟨(I.holds_implies v atom t).1 h, by simp⟩
    · intro I atom v h
      simp [imp, h]
  · rename_i hand
    exact .pure ⟨.same hs hw, ht.disjunctive (by simpa using hand)⟩

/-- Distributing puts nothing new together. -/
theorem within_distribute {voc : Vocabulary} (i : Fin args.length)
    (h : ∀ a ∈ args, a.Within voc) : (distribute args i).Within voc := by
  simp only [distribute, conj, within_node, List.forall_mem_map, flatten_eq_leaves, disj]
  intro m hm a ha
  rcases List.mem_or_eq_of_mem_set ha with ha | rfl
  · exact h a ha
  · exact (h _ (List.getElem_mem i.2)).of_mem_parts (mem_parts_of_mem_leaves hm)

/-- **A disjunction is distributed, or gets names for its conjunctions.** -/
theorem ensures_disjoin (hdefine : Defines D define DefinesConjunction) (hs : s.Ready)
    (hw : ∀ a ∈ args, a.Within s.vocabulary)
    (hargs : ∀ a ∈ args, Raised (·.isFormula = true) a) :
    Ensures (disjoin define args) s fun t s' =>
      Rewrites D false [.node .or args] [t] s s' ∧ Raised (·.isFormula = true) t := by
  rcases isOp_and_cases args with hnone | ⟨hcount, i, hi⟩ | hcount
  · rw [disjoin_eq_pure define hnone]
    exact .pure ⟨.same hs (within_node.2 hw),
      .clause (.disj fun a ha => (hargs a ha).disjunctive (hnone a ha))⟩
  · rw [disjoin_eq_distribute define hcount hi]
    refine .pure ⟨.of_iff hs (within_distribute i hw) fun I v => I.holds_distribute v args i, ?_⟩
    refine raised_distribute (hargs _ (List.getElem_mem i.2))
      (fun a ha hand => (hargs a ha).disjunctive hand) fun j hj => ?_
    exact isOp_and_of_countP hcount hi hj
  · rw [disjoin_eq_mapM define hcount]
    refine (Ensures.mapM D false hs hw fun a ha s hs hw =>
      ensures_nameConjunction hdefine hs hw (hargs a ha)).bind ?_
    rintro args' s' ⟨hr, hd⟩
    exact .pure ⟨hr.junction (.inr rfl), .clause (.disj hd)⟩

/-! ### Whole formulas -/

/-- **The conjunctions of a formula made of literals come out on top.** -/
theorem ensures_raiseAnds (hj : Junctive (·.isFormula = true) t)
    (hdefine : Defines D define DefinesConjunction) (hs : s.Ready) (hw : t.Within s.vocabulary) :
    Ensures (raiseAnds define t) s fun t' s' =>
      Rewrites D false [t] [t'] s s' ∧ Raised (·.isFormula = true) t' := by
  induction hj generalizing s with
  | literal hl hf =>
    rw [raiseAnds_of_isLiteral define hl]
    exact .pure ⟨.same hs hw, .clause (.literal hl hf)⟩
  | conj _ ih =>
    rw [raiseAnds, raiseAndsAll_eq_mapM]
    refine (Ensures.mapM D false hs (within_node.1 hw) fun a ha s hs hw =>
      ih a ha hs hw).bind ?_
    rintro args' s' ⟨hr, hraised⟩
    exact .pure ⟨hr.junction (.inl rfl), .conj hraised⟩
  | disj _ ih =>
    rw [raiseAnds, raiseAndsAll_eq_mapM]
    refine (Ensures.mapM D false hs (within_node.1 hw) fun a ha s hs hw =>
      ih a ha hs hw).bind ?_
    rintro args' s' ⟨hr, hraised⟩
    refine (ensures_disjoin (D := D) hdefine hr.ready hr.within hraised).mono ?_
    rintro t' s'' ⟨hd, hraised'⟩
    exact ⟨(hr.junction (.inr rfl)).trans hd, hraised'⟩

end ConvertM

end ClauseForm
