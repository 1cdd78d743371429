import ClauseForm.Proofs.Conversion.Covering

/-!
# The stages of a conversion in the ledger

What each stage of a conversion enters in the ledger once the quantifiers are gone: names,
each with the formula that it is the name of. All that the stages do is to take formulas
apart and to put them together again, so that what is accounted for stays so; and the
definition of a name is converted in the same way, to whatever depth
(`ClauseForm.Ledger.covers_convertWithin`).
-/

namespace ClauseForm

namespace Ledger

open Conversion ConvertM Term

variable {L : Ledger} {limit : Nat} {s s' s'' : Conversion} {t : Term} {args : List Term}

/-! ### Names -/

/-- The way that definitions go is covered wherever a formula is accounted for. -/
def CoversDefinitions (limit : Nat) : Prop :=
  ∀ t L, Accounts L t → L.Covers (convertWithin limit t) fun _ _ => True

/-- What naming a formula does. -/
theorem nameFor_eq_ok {atom : Term} (h : nameFor t s = .ok atom s') :
    atom = FunSym.appliedTo ⟨s.vocabulary.funs.size, .definition⟩ (t.freeVars.map .var) ∧
      s'.clauses = s.clauses ∧ s'.vocabulary.vars = s.vocabulary.vars ∧
      (∃ name, s'.vocabulary.funs = s.vocabulary.funs.push name) ∧ s.Enters s' [(atom, t)] := by
  obtain ⟨f, s₁, hnew, hrest⟩ := bind_eq_ok.1 h
  obtain ⟨_, s₂, hreport, hpure⟩ := bind_eq_ok.1 hrest
  obtain ⟨rfl, rfl⟩ := pure_eq_ok.1 hpure
  cases hnew
  have henters := enters_of_report hreport
  have hsame := eq_of_report hreport
  exact ⟨rfl, by rw [hsame], by rw [hsame], ⟨_, by rw [hsame]⟩, henters⟩

section Naming

variable {g atom : Term} {gs : List Term}

/-- Once a formula is given a name, the ledger has it. -/
theorem Fits.nameFor (hfits : L.Fits s) (h : nameFor t s = .ok atom s') :
    (L.define [t]).Fits s' := by
  obtain ⟨-, -, hvars, ⟨name, hfuns⟩, -⟩ := nameFor_eq_ok h
  refine ⟨hvars ▸ hfits.vars, ?_⟩
  rw [hfuns, Array.size_push, hfits.funs]
  simp [define, Nat.add_assoc]

theorem accounts_nameFor (hfits : L.Fits s) (ht : L.Accounts t) (h : nameFor t s = .ok atom s') :
    (L.define [t]).Accounts atom := by
  have hrecords : (L.define [t]).Records ⟨s.vocabulary.funs.size, .definition⟩ (.definition t) :=
    ⟨L.mints.length, by simp [define], by rw [hfits.funs]; rfl⟩
  rw [(nameFor_eq_ok h).1]
  refine accounts_appliedTo hrecords fun x hx => ?_
  exact ht.mem_vars (mem_vars_of_mem_free (mem_freeVars.1 hx))

/-- A name is entered ahead of those that its definition needs. -/
theorem Posts.cons (hname : nameFor g s = .ok atom s') (h : (L.define [g]).Posts gs s' s'') :
    L.Posts (g :: gs) s s'' := by
  obtain ⟨hatom, hclauses, hvars, ⟨name, hfuns⟩, henters⟩ := nameFor_eq_ok hname
  have hdefine : (L.define [g]).define gs = L.define (g :: gs) := define_define L [g] gs
  have hsize : s'.vocabulary.funs.size = s.vocabulary.funs.size + 1 := by
    rw [hfuns, Array.size_push]
  refine ⟨hdefine ▸ h.fits, ?_, ?_, ?_⟩
  · refine .trans ⟨hvars ▸ List.prefix_refl _, ?_⟩ h.vocabulary
    rw [hfuns, Array.toList_push]
    exact List.prefix_append _ _
  · obtain ⟨cs, hcs, hc⟩ := h.clauses
    exact ⟨cs, hclauses ▸ hcs, hdefine ▸ hc⟩
  · rw [namesFrom_cons, ← hatom, ← hsize]
    exact henters.trans h.journal

end Naming

/-- **A name is entered in the ledger**, and so is what its definition needs. -/
theorem covers_named (hlimit : CoversDefinitions limit) {definition : Term → Term}
    (hdefinition : ∀ {L : Ledger} {atom : Term}, L.Accounts atom → L.Accounts t →
      L.Accounts (definition atom)) (ht : L.Accounts t) :
    L.Covers (do let atom ← nameFor t; convertWithin limit (definition atom); return atom)
      Accounts := by
  intro s a s' hfits hrun
  obtain ⟨atom, s₁, hname, hrest⟩ := bind_eq_ok.1 hrun
  obtain ⟨_, s₂, hdefine, hpure⟩ := bind_eq_ok.1 hrest
  obtain ⟨rfl, rfl⟩ := pure_eq_ok.1 hpure
  have ht₁ := (continues_define L [t]).accounts ht
  have hatom := accounts_nameFor hfits ht hname
  obtain ⟨gs, hposts, -⟩ :=
    hlimit _ _ (hdefinition hatom ht₁) s₁ () s₂ (hfits.nameFor hname) hdefine
  refine ⟨t :: gs, hposts.cons hname, ?_⟩
  exact define_define L [t] gs ▸ (continues_define _ gs).accounts hatom

/-! ### Writing biconditionals out -/

/-- The normal form of a formula is made of what the formula is made of. -/
theorem Accounts.nnf {sign : Bool} (hs : Signed t sign) (h : L.Accounts t) :
    L.Accounts (t.nnf sign) :=
  hs.carry_nnf accounts_node
    (fun _ h => absurd h.quantifierFree not_quantifierFree_quant) h

theorem covers_nameSide (hlimit : CoversDefinitions limit) (ht : L.Accounts t) :
    L.Covers (nameSide (convertWithin limit) t) Accounts := by
  unfold nameSide
  refine (Covers.ofExcept (P := fun _ _ => True) fun _ _ => trivial).bind fun core L' hL _ => ?_
  split
  · exact covers_named hlimit (fun hatom ht => accounts_sideDefinition ht hatom) (hL.accounts ht)
  · exact .pure (hL.accounts ht)

theorem covers_expandIff {l r : Term} (hl : L.Accounts l) (hr : L.Accounts r) :
    L.Covers (expandIff l r) Accounts := by
  have hboth := accounts_sideDefinition hl hr
  refine .ofExcept fun n hn => ?_
  rw [show Term.conj [.imp l r, .imp r l] = sideDefinition l r from rfl,
    lowerNot_eq_nnf hboth.keepsArities] at hn
  exact Except.ok.inj hn ▸ hboth.nnf (hboth.keepsArities.signed true)

/-- **Writing biconditionals out is covered.** -/
theorem covers_expandIffs (hlimit : CoversDefinitions limit) (ht : L.Accounts t) :
    L.Covers (expandIffs (convertWithin limit) t) Accounts := by
  induction t using Term.induct generalizing L with
  | node op args ih =>
    obtain ⟨htakes, hargs⟩ := accounts_node.1 ht
    rw [expandIffs, expandIffsAll_eq_mapM]
    refine (Covers.mapM (Q := Accounts) Continues.accounts fun a ha L' hL =>
      ih a ha (hL.accounts (hargs a ha))).bind ?_
    rintro as L₁ h₁ ⟨hlength, has⟩
    rw [← hlength] at htakes
    split
    · rename_i hop
      subst hop
      obtain ⟨a, b, rfl⟩ := Op.exists_of_takes_two rfl htakes
      obtain ⟨ha, hb⟩ := forall_mem_pair.1 has
      refine (covers_nameSide hlimit ha).bind fun l L₂ h₂ hl => ?_
      refine (covers_nameSide hlimit (h₂.accounts hb)).bind fun r L₃ h₃ hr => ?_
      exact covers_expandIff (h₃.accounts hl) hr
    · exact .pure (accounts_node.2 ⟨htakes, has⟩)
  | _ =>
    rw [expandIffs_of_expanded _ (.leaf rfl)]
    exact .pure ht

/-! ### Raising conjunctions -/

theorem covers_nameConjunction (hlimit : CoversDefinitions limit) (ht : L.Accounts t) :
    L.Covers (nameConjunction (convertWithin limit) t) Accounts := by
  unfold nameConjunction
  split
  · exact covers_named hlimit accounts_imp ht
  · exact .pure ht

theorem covers_disjoin (hlimit : CoversDefinitions limit) (h : ∀ a ∈ args, L.Accounts a) :
    L.Covers (disjoin (convertWithin limit) args) Accounts := by
  rcases isOp_and_cases args with hnone | ⟨hone, i, hi⟩ | hseveral
  · rw [disjoin_eq_pure _ hnone]
    exact .pure (accounts_node.2 ⟨rfl, h⟩)
  · rw [disjoin_eq_distribute _ hone hi]
    refine .pure (forall_parts_distribute i ?_ h)
    rintro op args (rfl | rfl) <;> exact allows_node rfl
  · rw [disjoin_eq_mapM _ hseveral]
    refine (Covers.mapM (Q := Accounts) Continues.accounts fun a ha L' hL =>
      covers_nameConjunction hlimit (hL.accounts (h a ha))).bind ?_
    rintro as L₁ h₁ ⟨-, has⟩
    exact .pure (accounts_node.2 ⟨rfl, has⟩)

/-- **Raising conjunctions is covered.** -/
theorem covers_raiseAnds (hlimit : CoversDefinitions limit) (ht : L.Accounts t) :
    L.Covers (raiseAnds (convertWithin limit) t) Accounts := by
  induction t using Term.induct generalizing L with
  | node op args ih =>
    obtain ⟨htakes, hargs⟩ := accounts_node.1 ht
    have hall := Covers.mapM (f := raiseAnds (convertWithin limit)) (Q := Accounts)
      Continues.accounts fun a ha L' (hL : L.Continues L') => ih a ha (hL.accounts (hargs a ha))
    cases op with
    | and =>
      rw [raiseAnds, raiseAndsAll_eq_mapM]
      exact hall.bind fun as L₁ h₁ has => .pure (accounts_node.2 ⟨rfl, has.2⟩)
    | or =>
      rw [raiseAnds, raiseAndsAll_eq_mapM]
      exact hall.bind fun as L₁ h₁ has => covers_disjoin hlimit has.2
    | _ => exact .pure ht
  | _ =>
    rw [raiseAnds_of_op?_eq_none _ rfl]
    exact .pure ht

/-! ### Gathering clauses -/

theorem covers_gatherClause {c : Clause} (hc : ∀ l ∈ c.literals, L.Accounts l) :
    L.Covers (gatherClause c) fun _ _ => True := by
  have hmodify : ∀ {L : Ledger} {d : Clause}, (∀ l ∈ d.literals, L.Accounts l) →
      L.Covers (modify fun s : Conversion => { s with clauses := s.clauses ++ [d] })
        fun _ _ => True := by
    intro L d hd s a s' hfits hrun
    cases hrun
    refine ⟨[], ⟨?_, .refl _, ⟨[d], rfl, ?_⟩, .of_eq rfl⟩, trivial⟩
    · rw [define_nil]
      exact ⟨hfits.vars, hfits.funs⟩
    · rw [define_nil]
      simpa using hd
  unfold gatherClause
  refine .bind_get fun s => ?_
  split
  · refine (Covers.ofExcept (P := fun _ _ => True) fun _ _ => trivial).bind fun b L₁ h₁ _ => ?_
    split
    · exact .pure trivial
    · refine (Covers.ofExcept (P := fun L' d => ∀ l ∈ d.literals, L'.Accounts l)
        fun d hd l hl => ?_).bind fun d L₂ h₂ hd => hmodify hd
      exact h₁.accounts (hc l (Clause.mem_of_withoutFalse hd l hl))
  · exact hmodify hc

/-- **The clauses gathered from a formula are accounted for.** -/
theorem covers_gatherClauses (ht : L.Accounts t) :
    L.Covers (gatherClauses t) fun _ _ => True := by
  have hall : ∀ {ds : List Term} {L : Ledger}, (∀ d ∈ ds, L.Accounts d) →
      L.Covers (ds.forM fun d => gatherClause ⟨d.flatten .or⟩) fun _ _ => True := by
    intro ds L h
    induction ds generalizing L with
    | nil => exact .pure trivial
    | cons d ds ih =>
      rw [List.forall_mem_cons] at h
      refine (covers_gatherClause fun l hl => ?_).bind fun _ L₁ h₁ _ =>
        ih fun d hd => h₁.accounts (h.2 d hd)
      rw [flatten_eq_leaves] at hl
      exact h.1.of_mem_parts (mem_parts_of_mem_leaves hl)
  refine hall fun d hd => ?_
  rw [flatten_eq_leaves] at hd
  exact ht.of_mem_parts (mem_parts_of_mem_leaves hd)

/-! ### Whole formulas -/

/-- What is done with a formula once its quantifiers are gone. -/
theorem covers_clausifyVia (hlimit : CoversDefinitions limit) (ht : L.Accounts t) :
    L.Covers (clausifyVia (convertWithin limit) (convertWithin limit) t) fun _ _ => True := by
  refine (covers_expandIffs hlimit ht).bind fun m L₁ h₁ hm => ?_
  refine (covers_raiseAnds hlimit hm).bind fun c L₂ h₂ hc => ?_
  exact (Covers.report rfl).bind fun _ L₃ h₃ _ => covers_gatherClauses (h₃.accounts hc)

/-- **The conversion of a formula without quantifiers is covered**, definitions included, however
deep they are nested. -/
theorem covers_convertWithin (limit : Nat) : CoversDefinitions limit := by
  induction limit with
  | zero =>
    intro t L ht s a s' hfits hrun
    cases hrun
  | succ limit ih =>
    intro t L ht
    have hnormal := ht.nnf (ht.keepsArities.signed true)
    rw [convertWithin_succ, convertVia, lowerNot_eq_nnf ht.keepsArities]
    refine (Covers.ofExcept (P := fun L' n => n = t.nnf true) fun n hn =>
      (Except.ok.inj hn).symm).bind ?_
    rintro _ L₁ h₁ rfl
    refine (Covers.report rfl).bind fun _ L₂ h₂ _ => ?_
    rw [matrix_empty_eq_pure hnormal.quantifierFree, pure_bind]
    exact covers_clausifyVia ih (h₂.accounts (h₁.accounts hnormal))

end Ledger

end ClauseForm
