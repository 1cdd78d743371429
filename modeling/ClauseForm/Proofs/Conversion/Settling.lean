import ClauseForm.Proofs.Conversion.Invariance

/-!
# Nothing is left to be done in a literal

The literals of the clauses that are gathered are settled: there are no quantifiers in them,
no biconditionals but inside calls, and their operators keep the argument counts. This
does not depend on the first-order formulas among the terms, since biconditionals are
written out wherever they stand below operators (`ClauseForm.ConvertM.gathers_expandIffs`),
and what raises conjunctions takes settled terms apart and puts them together again
(`ClauseForm.ConvertM.gathers_raiseAnds`). Together with the shape of the literals that
makes a clause set one with nothing left to be done (`ClauseForm.Cnf.Done`), and every
conversion comes to such a set (`ClauseForm.convert_done`).
-/

namespace ClauseForm

/-- There is nothing left for a conversion to do: the clauses are made of settled literals. -/
def Cnf.Done (cnf : Cnf) : Prop :=
  ∀ c ∈ cnf.clauses, ∀ l ∈ c.literals, l.isLiteral = true ∧ l.Settled

namespace Term

variable {t l : Term} {args : List Term}

/-- What stands below the nested nodes of an operator in a settled term is settled. -/
theorem Settled.of_mem_leaves {op : Op} (h : t.Settled) (hl : l ∈ t.leaves op) : l.Settled := by
  induction t using Term.induct with
  | node o args ih =>
    by_cases ho : o = op
    · subst ho
      rw [leaves_node_self, List.mem_flatMap] at hl
      obtain ⟨a, ha, hl⟩ := hl
      exact ih a ha ((settled_node.1 h).2.2 a ha) hl
    · rw [leaves, if_neg ho, List.mem_singleton] at hl
      exact hl ▸ h
  | _ =>
    rw [leaves_of_isOp_false rfl, List.mem_singleton] at hl
    exact hl ▸ h

theorem settled_distribute (i : Fin args.length) (h : ∀ a ∈ args, a.Settled) :
    (distribute args i).Settled := by
  refine settled_node.2 ⟨rfl, by simp, List.forall_mem_map.2 fun m hm => ?_⟩
  rw [flatten_eq_leaves] at hm
  refine settled_node.2 ⟨rfl, by simp, fun a ha => ?_⟩
  rcases List.mem_or_eq_of_mem_set ha with ha | rfl
  · exact h a ha
  · exact (h _ (List.getElem_mem i.isLt)).of_mem_leaves hm

end Term

namespace ConvertM

open Conversion Term

variable {α β : Type} {t : Term} {args : List Term}

/-! ### Programs that gather settled literals -/

/-- Wherever the program comes to an end, the answer is as `P` says, and the clauses gathered on the
way are made of settled terms. -/
def Gathers (P : α → Prop) (x : ConvertM α) : Prop :=
  ∀ s a s', x s = .ok a s' →
    P a ∧ ∀ c ∈ s'.clauses, c ∈ s.clauses ∨ ∀ l ∈ c.literals, l.Settled

namespace Gathers

variable {P : α → Prop} {Q : β → Prop}

theorem pure {a : α} (h : P a) : Gathers P (Pure.pure a) := by
  intro s b s' hrun
  obtain ⟨rfl, rfl⟩ := pure_eq_ok.1 hrun
  exact ⟨h, fun c hc => .inl hc⟩

theorem bind {x : ConvertM α} {f : α → ConvertM β} (h : Gathers P x)
    (hf : ∀ a, P a → Gathers Q (f a)) : Gathers Q (x >>= f) := by
  intro s b s'' hrun
  obtain ⟨a, s', hx, hfa⟩ := bind_eq_ok.1 hrun
  obtain ⟨ha, hfirst⟩ := h s a s' hx
  obtain ⟨hb, hrest⟩ := hf a ha s' b s'' hfa
  exact ⟨hb, fun c hc => (hrest c hc).elim (hfirst c) .inr⟩

theorem mono {x : ConvertM α} {P' : α → Prop} (h : Gathers P x) (hP : ∀ a, P a → P' a) :
    Gathers P' x :=
  fun s a s' hrun => ⟨hP a (h s a s' hrun).1, (h s a s' hrun).2⟩

/-- Looking at the state. -/
theorem bind_get {f : Conversion → ConvertM β} (h : ∀ s, Gathers Q (f s)) :
    Gathers Q (get >>= f) :=
  fun s b s' hrun => h s s b s' hrun

theorem ofExcept {x : Except Fault α} (h : ∀ a, x = .ok a → P a) :
    Gathers P (ConvertM.ofExcept x) := by
  intro s a s' hrun
  obtain ⟨hx, rfl⟩ := ofExcept_eq_ok.1 hrun
  exact ⟨h a hx, fun c hc => .inl hc⟩

theorem report (e : Event) : Gathers (fun _ => True) (ConvertM.report e) := by
  intro s a s' hrun
  rw [eq_of_report hrun]
  exact ⟨trivial, fun c hc => .inl hc⟩

/-- One step for each member of a list. -/
theorem mapM {f : α → ConvertM β} {as : List α} (h : ∀ a ∈ as, Gathers Q (f a)) :
    Gathers (fun bs => bs.length = as.length ∧ ∀ b ∈ bs, Q b) (as.mapM f) := by
  induction as with
  | nil => exact pure ⟨rfl, by simp⟩
  | cons a as ih =>
    rw [List.forall_mem_cons] at h
    rw [List.mapM_cons]
    refine h.1.bind fun b hb => (ih h.2).bind fun bs hbs => ?_
    exact pure ⟨congrArg (· + 1) hbs.1, List.forall_mem_cons.2 ⟨hb, hbs.2⟩⟩

end Gathers

/-! ### Names -/

/-- A name is a settled atom, and nothing is gathered for it. -/
theorem gathers_nameFor (t : Term) :
    Gathers (fun atom => atom.isAtom = true ∧ atom.Settled) (nameFor t) := by
  intro s atom s' hrun
  obtain ⟨rfl, hclauses, -⟩ := Ledger.nameFor_eq_ok hrun
  exact ⟨⟨FunSym.isAtom_appliedTo .., literalClass_settled.name ..⟩,
    fun c hc => .inl (hclauses ▸ hc)⟩

section Definitions

variable {define : Term → ConvertM Unit}

/-- The way that definitions go gathers settled literals from what has no quantifiers. -/
def GathersDefinitions (define : Term → ConvertM Unit) : Prop :=
  ∀ t : Term, t.QuantifierFree → t.KeepsArities → Gathers (fun _ => True) (define t)

theorem gathers_named (hdefine : GathersDefinitions define) (definition : Term → Term)
    (h : ∀ atom, atom.Settled → (definition atom).Settled) (t : Term) :
    Gathers (fun atom => atom.isAtom = true ∧ atom.Settled)
      (do let atom ← nameFor t; define (definition atom); return atom) := by
  refine (gathers_nameFor t).bind fun atom hatom => ?_
  have hd := h atom hatom.2
  exact (hdefine _ hd.quantifierFree hd.keepsArities).bind fun _ _ => .pure hatom

/-! ### Writing biconditionals out -/

theorem gathers_nameSide (hdefine : GathersDefinitions define) (ht : t.Settled) :
    Gathers (Elementary Settled) (nameSide define t) := by
  obtain ⟨core, hstrip, helementary⟩ := ht.isSide
  unfold nameSide
  refine (Gathers.ofExcept (P := (· = core)) fun core' hcore => ?_).bind ?_
  · exact Except.ok.inj (hcore.symm.trans hstrip)
  rintro _ rfl
  split
  · refine (gathers_named hdefine (sideDefinition t)
      (fun _ ha => settled_sideDefinition ht ha) t).mono fun atom hatom => ?_
    exact literalClass_settled.elementary (isLiteral_literal hatom.1 true) hatom.2
  · rename_i hcore
    exact .pure (helementary (by simpa using hcore))

/-- **Biconditionals are written out wherever they stand**, and what is left is settled. -/
theorem gathers_expandIffs (hdefine : GathersDefinitions define) (hq : t.QuantifierFree)
    (hk : t.KeepsArities) : Gathers Settled (expandIffs define t) := by
  induction t using Term.induct with
  | node op args ih =>
    obtain ⟨htakes, hks⟩ := keepsArities_node.1 hk
    have hqs := quantifierFree_node.1 hq
    rw [expandIffs, expandIffsAll_eq_mapM]
    refine (Gathers.mapM fun a ha => ih a ha (hqs a ha) (hks a ha)).bind ?_
    rintro as ⟨hlength, has⟩
    rw [← hlength] at htakes
    split
    · rename_i hop
      subst hop
      obtain ⟨a, b, rfl⟩ := Op.exists_of_takes_two rfl htakes
      obtain ⟨ha, hb⟩ := forall_mem_pair.1 has
      refine (gathers_nameSide hdefine ha).bind fun l hl => ?_
      refine (gathers_nameSide hdefine hb).bind fun r hr => ?_
      rw [expandIff_eq_pure hl hr]
      have hsides : Junctive Settled ((sideDefinition l r).nnf true) :=
        junctive_sideDefinition (fun sign => .literal (hl.literal sign).1 (hl.literal sign).2)
          fun sign => .literal (hr.literal sign).1 (hr.literal sign).2
      exact .pure (literalClass_settled.settled_of_junctive hsides)
    · rename_i hop
      exact .pure (settled_node.2 ⟨htakes, hop, has⟩)
  | _ =>
    rw [expandIffs_of_expanded define (.leaf rfl)]
    exact .pure ⟨hq, hk, .leaf rfl⟩

/-! ### Raising conjunctions -/

theorem gathers_nameConjunction (hdefine : GathersDefinitions define) (ht : t.Settled) :
    Gathers Settled (nameConjunction define t) := by
  unfold nameConjunction
  split
  · exact (gathers_named hdefine (imp · t)
      (fun _ ha => settled_node.2 ⟨rfl, by simp, forall_mem_pair.2 ⟨ha, ht⟩⟩) t).mono
        fun atom hatom => hatom.2
  · exact .pure ht

theorem gathers_disjoin (hdefine : GathersDefinitions define) (h : ∀ a ∈ args, a.Settled) :
    Gathers Settled (disjoin define args) := by
  rcases isOp_and_cases args with hnone | ⟨hone, i, hi⟩ | hseveral
  · rw [disjoin_eq_pure define hnone]
    exact .pure (settled_node.2 ⟨rfl, by simp, h⟩)
  · rw [disjoin_eq_distribute define hone hi]
    exact .pure (settled_distribute i h)
  · rw [disjoin_eq_mapM define hseveral]
    refine (Gathers.mapM fun a ha => gathers_nameConjunction hdefine (h a ha)).bind ?_
    exact fun as has => .pure (settled_node.2 ⟨rfl, by simp, has.2⟩)

/-- **Raising conjunctions keeps a term settled.** -/
theorem gathers_raiseAnds (hdefine : GathersDefinitions define) (ht : t.Settled) :
    Gathers Settled (raiseAnds define t) := by
  induction t using Term.induct with
  | node op args ih =>
    obtain ⟨htakes, hop, hargs⟩ := settled_node.1 ht
    have hall := Gathers.mapM fun a ha => ih a ha (hargs a ha)
    cases op with
    | and =>
      rw [raiseAnds, raiseAndsAll_eq_mapM]
      exact hall.bind fun as has => .pure (settled_node.2 ⟨rfl, hop, has.2⟩)
    | or =>
      rw [raiseAnds, raiseAndsAll_eq_mapM]
      exact hall.bind fun as has => gathers_disjoin hdefine has.2
    | _ => exact .pure ht
  | _ =>
    rw [raiseAnds_of_op?_eq_none define rfl]
    exact .pure ht

/-! ### Gathering clauses -/

theorem gathers_gatherClause {c : Clause} (hc : ∀ l ∈ c.literals, l.Settled) :
    Gathers (fun _ => True) (gatherClause c) := by
  have hmodify : ∀ d : Clause, (∀ l ∈ d.literals, l.Settled) → Gathers (fun _ => True)
      (modify fun s : Conversion => { s with clauses := s.clauses ++ [d] }) := by
    intro d hd s a s' hrun
    cases hrun
    refine ⟨trivial, fun c hc => ?_⟩
    rcases List.mem_append.1 hc with hc | hc
    · exact .inl hc
    · exact .inr (List.mem_singleton.1 hc ▸ hd)
  unfold gatherClause
  refine .bind_get fun s => ?_
  split
  · refine (Gathers.ofExcept (P := fun _ => True) fun _ _ => trivial).bind fun b _ => ?_
    split
    · exact .pure trivial
    · refine (Gathers.ofExcept (P := fun d : Clause => ∀ l ∈ d.literals, l.Settled)
        fun d hd l hl => ?_).bind hmodify
      exact hc l (Clause.mem_of_withoutFalse hd l hl)
  · exact hmodify c hc

theorem gathers_gatherClauses (ht : t.Settled) : Gathers (fun _ => True) (gatherClauses t) := by
  have hall : ∀ ds : List Term, (∀ d ∈ ds, d.Settled) →
      Gathers (fun _ => True) (ds.forM fun d => gatherClause ⟨d.flatten .or⟩) := by
    intro ds h
    induction ds with
    | nil => exact .pure trivial
    | cons d ds ih =>
      rw [List.forall_mem_cons] at h
      refine (gathers_gatherClause fun l hl => ?_).bind fun _ _ => ih h.2
      rw [flatten_eq_leaves] at hl
      exact h.1.of_mem_leaves hl
  refine hall _ fun d hd => ?_
  rw [flatten_eq_leaves] at hd
  exact ht.of_mem_leaves hd

/-! ### Whole formulas -/

/-- What is done with a term once its quantifiers are gone. -/
theorem gathers_clausifyVia (hdefine : GathersDefinitions define) (hq : t.QuantifierFree)
    (hk : t.KeepsArities) : Gathers (fun _ => True) (clausifyVia define define t) := by
  refine (gathers_expandIffs hdefine hq hk).bind fun m hm => ?_
  refine (gathers_raiseAnds hdefine hm).bind fun c hc => ?_
  exact (Gathers.report _).bind fun _ _ => gathers_gatherClauses hc

end Definitions

/-- **Definitions gather settled literals**, to whatever depth they are nested. -/
theorem gathersDefinitions_convertWithin (limit : Nat) :
    GathersDefinitions (convertWithin limit) := by
  induction limit with
  | zero =>
    intro t _ _ s a s' hrun
    cases hrun
  | succ limit ih =>
    intro t hq hk
    have hsigned := hk.signed true
    have hnq := hsigned.quantifierFree_nnf hq
    rw [convertWithin_succ, convertVia, lowerNot_eq_nnf hk]
    refine (Gathers.ofExcept (P := (· = t.nnf true)) fun n hn => (Except.ok.inj hn).symm).bind ?_
    rintro _ rfl
    refine (Gathers.report _).bind fun _ _ => ?_
    rw [matrix_empty_eq_pure hnq, pure_bind]
    exact gathers_clausifyVia ih hnq (hsigned.keepsArities_nnf hk)

end ConvertM

namespace Conversion

open ConvertM Term

/-- **Adding a term gathers clauses of settled literals**, whatever the choices. -/
theorem settled_of_add {t : Term} {s s' : Conversion} (hk : t.KeepsArities)
    (h : add t s = .ok () s') :
    ∀ c ∈ s'.clauses, c ∈ s.clauses ∨ ∀ l ∈ c.literals, l.Settled := by
  obtain ⟨u, hu, huk⟩ := exists_prepared_keepsArities s.config hk
  have hclosed := keepsArities_universalClosure huk
  obtain ⟨m, s₁, s₂, s₃, -, hc₁, -, hmatrix, hclausify, -, hc', -⟩ :=
    exists_of_addClosed hclosed (add_eq_addClosed hu ▸ h)
  obtain ⟨hbrings, hm⟩ :=
    Ledger.brings_matrix hclosed u.free_universalClosure (fun f hf => hf) hmatrix
  obtain ⟨-, hgather⟩ := gathers_clausifyVia (gathersDefinitions_convertWithin 3)
    hm.quantifierFree hm.keepsArities s₂ () s₃ hclausify
  rwa [hc', ← hc₁, ← hbrings.clauses]

end Conversion

open Conversion ConvertM Term

/-- **A conversion leaves nothing to be done**, whatever well-formed term is converted, and with
which choices. -/
theorem convert_done (config : Config) {t : Term} (ht : t.WellFormed) (voc : Vocabulary) :
    ∃ cnf voc', convert config t voc = (.ok cnf, voc') ∧ cnf.Done := by
  obtain ⟨cnf, voc', hconvert, hclausal⟩ := convert_clausal config ht voc
  obtain ⟨s, hrun⟩ := exists_add ht.keepsArities (start config voc)
  have hsettled := settled_of_add ht.keepsArities hrun
  obtain ⟨rfl, rfl⟩ : cnf = ⟨s.clauses⟩ ∧ voc' = s.vocabulary := by
    simpa using hconvert.symm.trans (convert_of_add hrun)
  exact ⟨_, _, hconvert, fun c hc l hl =>
    ⟨(hclausal c hc l hl).1, (hsettled c hc).resolve_left List.not_mem_nil l hl⟩⟩

end ClauseForm
