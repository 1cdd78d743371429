import ClauseForm.Proofs.Conversion.Settling
import ClauseForm.Proofs.Syntax.Exchange

/-!
# Clause form is a fixed point

Converting clauses again gives the same clauses, but for the names of the variables
(`ClauseForm.convert_toTerm`). The formula that is made of a clause set with nothing left to be
done (`ClauseForm.Cnf.Done`) has its conjunctions on top and is in negation normal form, so
that every stage but one is the identity on it. That one is taking the quantifiers of the
closure away, which gives every variable a fresh one, different ones to different variables
(`ClauseForm.ConvertM.exists_matrix_closure`). Flattening then finds the clauses and the
literals at their places (`ClauseForm.Cnf.Done.clauseList`).
-/

namespace ClauseForm

open Conversion ConvertM Term

/-! ### Exchanging symbols leaves nothing to be done -/

section Exchange

variable {v : Var → Var} {g : FunSym → FunSym} {t : Term}

theorem Term.isLiteral_mapSymbols (h : t.isLiteral = true) :
    (t.mapSymbols v g).isLiteral = true := by
  have hatom : ∀ {a : Term}, a.isAtom = true → (a.mapSymbols v g).isAtom = true := by
    intro a ha
    cases a <;> simp_all [isAtom]
  obtain ⟨a, sign, ha, rfl⟩ := exists_of_isLiteral h
  cases sign
  · simpa [Task.literal, neg, isLiteral] using hatom ha
  · exact isLiteral_literal (hatom ha) true

theorem Term.Expanded.mapSymbols (h : t.Expanded) : (t.mapSymbols v g).Expanded := by
  induction h with
  | leaf h => exact .leaf ((op?_mapSymbols ..).trans h)
  | node hop _ ih =>
    rw [mapSymbols_node]
    exact .node hop (List.forall_mem_map.2 ih)

theorem Term.Settled.mapSymbols (h : t.Settled) : (t.mapSymbols v g).Settled :=
  ⟨quantifierFree_mapSymbols.2 h.quantifierFree, keepsArities_mapSymbols.2 h.keepsArities,
    h.expanded.mapSymbols⟩

end Exchange

namespace Cnf.Done

variable {cs : List Clause}

theorem mapSymbols (h : Done ⟨cs⟩) (v : Var → Var) (g : FunSym → FunSym) :
    Done ⟨cs.map (Clause.mapSymbols v g)⟩ :=
  List.forall_mem_map.2 fun c hc => List.forall_mem_map.2 fun l hl =>
    ⟨isLiteral_mapSymbols (h c hc l hl).1, (h c hc l hl).2.mapSymbols⟩

/-- The formula made of the clauses has its conjunctions on top. -/
theorem raised (h : Done ⟨cs⟩) : Raised Settled (Cnf.toTerm ⟨cs⟩) := by
  refine .conj (List.forall_mem_map.2 fun c hc => .clause (.disj fun l hl => ?_))
  exact .literal (h c hc l hl).1 (h c hc l hl).2

theorem settled (h : Done ⟨cs⟩) : (Cnf.toTerm ⟨cs⟩).Settled :=
  literalClass_settled.settled_of_junctive h.raised.junctive

/-- **The clauses found in the formula are these clauses**, with the literals in their order. -/
theorem clauseList (h : Done ⟨cs⟩) : (Cnf.toTerm ⟨cs⟩).clauseList = cs := by
  have hclause : ∀ c ∈ cs, (⟨c.toTerm.leaves .or⟩ : Clause) = c := by
    intro c hc
    have hleaf : ∀ l ∈ c.literals, l.leaves .or = [l] := fun l hl =>
      leaves_of_isOp_false (isOp_of_isLiteral (h c hc l hl).1 rfl (by simp))
    rw [Clause.toTerm, disj, leaves_node_self, List.flatMap_congr hleaf, List.flatMap_singleton']
  have hconj : (Cnf.toTerm ⟨cs⟩).leaves .and = cs.map Clause.toTerm := by
    rw [toTerm, conj, leaves_node_self, List.flatMap_map, List.map_eq_flatMap]
    exact List.flatMap_congr fun c _ => leaves_of_isOp_false rfl
  rw [Term.clauseList, hconj, List.map_map]
  exact (List.map_congr_left hclause).trans (List.map_id _)

end Cnf.Done

namespace ConvertM

variable {s : Conversion} {t : Term} {cs : List Clause}

/-! ### The stages on clauses -/

/-- **The variables of a universal quantifier become the ones that are next**, in order. -/
theorem exists_bindFresh {xs : List Var} (hxs : xs.Nodup) (σ : Scope) (s : Conversion) :
    ∃ σ' vars, σ.bindFresh xs s = .ok σ' { s with vocabulary := ⟨vars, s.vocabulary.funs⟩ } ∧
      ∀ x, σ'.place x =
        if x ∈ xs then .var ⟨s.vocabulary.vars.size + xs.idxOf x⟩ else σ.place x := by
  induction xs generalizing σ s with
  | nil => exact ⟨σ, s.vocabulary.vars, rfl, by simp⟩
  | cons y xs ih =>
    obtain ⟨hy, hxs⟩ := List.nodup_cons.1 hxs
    let s₁ : Conversion := { s with vocabulary := (s.vocabulary.freshLike y).2 }
    have hsize : s₁.vocabulary.vars.size = s.vocabulary.vars.size + 1 := by
      simp [s₁, Vocabulary.freshLike]
    obtain ⟨σ', vars, hrun, hplace⟩ := ih hxs (σ.add y (.var ⟨s.vocabulary.vars.size⟩)) s₁
    refine ⟨σ', vars, hrun, fun x => ?_⟩
    rw [hplace, Scope.place_add, hsize]
    by_cases hxy : x = y
    · subst hxy
      simp [hy]
    · simp [hxy, List.idxOf_cons_ne _ (Ne.symm hxy), Nat.add_assoc, Nat.add_comm 1]

/-- **Taking the quantifiers of a closure away gives every variable a fresh one**, different ones
to different variables, and no other symbol is allotted. -/
theorem exists_matrix_closure (hq : t.QuantifierFree) (hnormal : t.nnf true = t)
    (s : Conversion) : ∃ (m : Var → Var) (vars : Array (Option String)),
      Set.InjOn m {x | x ∈ t.vars} ∧ matrix (t.universalClosure.nnf true) .empty s =
        .ok (t.mapSymbols m id) { s with vocabulary := ⟨vars, s.vocabulary.funs⟩ } := by
  obtain ⟨σ, vars, hrun, hplace⟩ := exists_bindFresh t.nodup_freeVars .empty s
  have hmem : ∀ {x}, x ∈ t.vars → x ∈ t.freeVars := fun hx =>
    mem_freeVars.2 (free_eq_vars hq ▸ hx)
  have hmatrix : matrix (t.universalClosure.nnf true) .empty =
      (do let σ ← Scope.bindFresh t.freeVars .empty; matrix t σ) := by
    unfold universalClosure
    split
    · rename_i hnone
      rw [hnone, Scope.bindFresh, pure_bind, hnormal]
    · rw [nnf, hnormal, if_pos rfl, matrix]
  refine ⟨fun x => ⟨s.vocabulary.vars.size + t.freeVars.idxOf x⟩, vars, fun x hx y hy h => ?_, ?_⟩
  · exact (List.idxOf_inj (hmem hx)).1 (Nat.add_left_cancel (Var.mk.inj h))
  · rw [hmatrix]
    refine bind_eq_ok.2 ⟨σ, _, hrun, ?_⟩
    rw [matrix_eq_pure σ hq, subst_eq_mapSymbols hq fun x hx => ?_]
    · rfl
    · rw [hplace, if_pos (hmem hx)]

/-- **Clauses converted again are the same clauses**, but for their variables. -/
theorem exists_convertWithin_toTerm (limit : Nat) (h : Cnf.Done ⟨cs⟩) {s : Conversion}
    (hs : s.journal = none) (hplain : s.config.simplify = false) :
    ∃ (m : Var → Var) (vars : Array (Option String)),
      Set.InjOn m {x | x ∈ (Cnf.toTerm ⟨cs⟩).vars} ∧
      Ensures (convertWithin (limit + 1) (Cnf.toTerm ⟨cs⟩).universalClosure) s fun _ s' =>
        s' = { s with
          vocabulary := ⟨vars, s.vocabulary.funs⟩
          clauses := s.clauses ++ cs.map (Clause.mapSymbols m id) } := by
  have hsettled := h.settled
  have hk := keepsArities_universalClosure hsettled.keepsArities
  obtain ⟨m, vars, hm, hmatrix⟩ :=
    exists_matrix_closure hsettled.quantifierFree h.raised.junctive.nnf_eq s
  refine ⟨m, vars, hm, ?_⟩
  have hdone := h.mapSymbols m id
  rw [convertWithin_succ, convertVia]
  refine .bind_ofExcept (lowerNot_eq_nnf hk true) ?_
  refine .bind_report _ hs ?_
  refine Ensures.bind (P := fun a s' => a = _ ∧ s' = _) ⟨_, _, hmatrix, rfl, rfl⟩ ?_
  rintro _ _ ⟨rfl, rfl⟩
  rw [← Cnf.toTerm_mapSymbols, clausifyVia, expandIffs_of_expanded _ hdone.settled.expanded,
    pure_bind, raiseAnds_eq_pure _ hdone.raised, pure_bind]
  refine .bind_report _ hs ⟨_, _, gatherClauses_of_plain (by exact hplain) _, ?_⟩
  rw [hdone.clauseList]

end ConvertM

/-! ### Exchanging variables one to one -/

namespace Renaming

variable {m : Var → Var} {xs : List Var} {s u : Symbol} {t : Term}

/-- A symbol with the variables exchanged. -/
def exchangeVars (m : Var → Var) : Symbol → Symbol
  | .var i => .var (m ⟨i⟩).id
  | .fn i => .fn i

/-- The way back from the variables that were exchanged for the given ones. -/
def takeBack (m : Var → Var) (xs : List Var) : Symbol → Option Symbol
  | .var i => (xs.find? fun x => (m x).id = i).map (.var ·.id)
  | .fn i => some (.fn i)

/-- What is taken back was exchanged. -/
theorem eq_exchangeVars (h : takeBack m xs s = some u) : s = exchangeVars m u := by
  cases s with
  | var i =>
    obtain ⟨x, hx, rfl⟩ := Option.map_eq_some_iff.1 h
    have hi : (m x).id = i := by simpa using List.find?_some hx
    exact congrArg Symbol.var hi.symm
  | fn i =>
    cases h
    rfl

theorem isMatching_takeBack (m : Var → Var) (xs : List Var) : IsMatching (takeBack m xs) where
  injective hs ht := (eq_exchangeVars hs).trans (eq_exchangeVars ht).symm
  sort {s u} hs := by
    rw [eq_exchangeVars hs]
    cases u <;> rfl

/-- If different variables are exchanged for different ones, each is taken back. -/
theorem takeBack_exchangeVars (hm : Set.InjOn m {x | x ∈ xs}) {x : Var} (hx : x ∈ xs) :
    takeBack m xs (exchangeVars m (.var x.id)) = some (.var x.id) := by
  change Option.map (fun y : Var => Symbol.var y.id)
    (xs.find? fun y => (m y).id = (m x).id) = _
  cases hfind : xs.find? fun y => (m y).id = (m x).id with
  | none => exact absurd (by simp) (List.find?_eq_none.1 hfind x hx)
  | some y =>
    have hy : (m y).id = (m x).id := by simpa using List.find?_some hfind
    have hxy : y = x := hm (List.mem_of_find?_eq_some hfind) hx (congrArg Var.mk hy)
    rw [hxy, Option.map_some]

/-- A term with its variables exchanged one to one is turned into the term by the way back. -/
theorem turns_mapSymbols (hq : t.QuantifierFree) (hm : Set.InjOn m {x | x ∈ t.vars}) :
    Turns (takeBack m t.vars) (t.mapSymbols m id) t := by
  refine (isMatching_takeBack m _).turns_iff.2 ⟨⟨skeleton_mapSymbols .., ?_⟩, ?_⟩
  · rw [calls_mapSymbols, List.map_id]
    exact (Resembles.refl t).heads
  · have hall : List.Forall₂ (fun s u => takeBack m t.vars s = some u)
        (t.symbols.map (exchangeVars m)) t.symbols := by
      rw [List.forall₂_map_left_iff, List.forall₂_same]
      rintro (i | i) hs
      · exact takeBack_exchangeVars hm (x := ⟨i⟩) (mem_vars_of_mem_symbols hq hs)
      · rfl
    have hsymbols : (t.mapSymbols m id).symbols = t.symbols.map (exchangeVars m) :=
      symbols_mapSymbols (fun _ => rfl) (fun _ => rfl) t
    rw [hsymbols]
    exact fun p hp => (List.forall₂_iff_zip.1 hall).2 hp

end Renaming

/-- The variables of a clause set are those of its clauses. -/
theorem Cnf.vars_toTerm (cs : List Clause) : (Cnf.toTerm ⟨cs⟩).vars = clauseVars cs := by
  simp [toTerm, Clause.toTerm, conj, disj, clauseVars, List.flatMap_map]

/-- **Clauses with their variables exchanged one to one are the same clauses up to renaming.** -/
theorem Cnf.isomorphic_mapSymbols {m : Var → Var} {cs : List Clause}
    (hq : (Cnf.toTerm ⟨cs⟩).QuantifierFree) (hm : Set.InjOn m {x | x ∈ (Cnf.toTerm ⟨cs⟩).vars}) :
    Cnf.isomorphic ⟨cs.map (Clause.mapSymbols m id)⟩ ⟨cs⟩ = true := by
  refine (Renaming.isMatching_takeBack m (Cnf.toTerm ⟨cs⟩).vars).isomorphic ?_
  rw [Cnf.toTerm_mapSymbols]
  exact Renaming.turns_mapSymbols hq hm

/-- **Clause form is a fixed point.** When the clauses of a term, whatever it is, are converted
again, by whatever vocabulary, no function symbol is allotted, and out come the same clauses, at
their places and with their literals in order, but for variables that are exchanged one to one. So
the new clauses are the old ones up to renaming. -/
theorem convert_toTerm (config : Config) {t : Term} (ht : t.WellFormed) (voc : Vocabulary) :
    ∃ cnf voc', convert config t voc = (.ok cnf, voc') ∧ ∀ again : Vocabulary,
      ∃ cnf' again', convert {} cnf.toTerm again = (.ok cnf', again') ∧
        again'.funs = again.funs ∧
        (∃ m : Var → Var, Set.InjOn m {x | x ∈ clauseVars cnf.clauses} ∧
          cnf'.clauses = cnf.clauses.map (Clause.mapSymbols m id)) ∧
        cnf'.isomorphic cnf = true := by
  obtain ⟨⟨cs⟩, voc', hrun, hdone⟩ := convert_done config ht voc
  refine ⟨⟨cs⟩, voc', hrun, fun again => ?_⟩
  obtain ⟨m, vars, hm, hagain⟩ :=
    exists_convertWithin_toTerm 3 hdone (s := start {} again) rfl rfl
  have hprepared : prepared {} (Cnf.toTerm ⟨cs⟩) = .ok (Cnf.toTerm ⟨cs⟩) := rfl
  obtain ⟨s, hconvert, rfl⟩ := exists_convert_of hprepared
    (hagain.mono fun _ s' h => ⟨h ▸ rfl, h⟩)
  refine ⟨_, _, hconvert, rfl, ⟨m, ?_, rfl⟩,
    Cnf.isomorphic_mapSymbols hdone.settled.quantifierFree hm⟩
  rwa [← Cnf.vars_toTerm]

theorem convert_toTerm_openExample :
    openExample.WellFormed ∧
      ∃ cnf voc', convert {} openExample openVocabulary = (.ok cnf, voc') ∧ ∀ again : Vocabulary,
        ∃ cnf' again', convert {} cnf.toTerm again = (.ok cnf', again') ∧
          again'.funs = again.funs ∧
          (∃ m : Var → Var, Set.InjOn m {x | x ∈ clauseVars cnf.clauses} ∧
            cnf'.clauses = cnf.clauses.map (Clause.mapSymbols m id)) ∧
          cnf'.isomorphic cnf = true :=
  ⟨by decide, convert_toTerm {} (by decide) openVocabulary⟩

end ClauseForm
