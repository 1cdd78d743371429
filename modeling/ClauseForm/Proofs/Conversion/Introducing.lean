import ClauseForm.Proofs.Conversion.Covered
import ClauseForm.Proofs.Conversion.Mirrored
import ClauseForm.Proofs.Syntax.SkolemArguments

/-!
# The ledger of adding a formula

Taking the quantifiers away introduces fresh variables and Skolem functions, and nothing
else (`ClauseForm.Ledger.Introduces`). The functions are entered in the ledger with the
arguments that are read off the formula (`ClauseForm.Ledger.introduces_matrix`). From then
on only names are entered, so that the ledger covers adding a formula from beginning to end
(`ClauseForm.Conversion.exists_add_audited`).
-/

namespace ClauseForm

namespace Ledger

open Conversion ConvertM Term

variable {α β : Type} {L L' : Ledger} {s s' : Conversion} {σ : Scope} {us : List Var}
variable {t : Term} {args : List Term} {n n' : Nat} {argss argss' : List (List Var)}

/-! ### Entering Skolem functions -/

/-- The ledger with so many fresh variables, and with Skolem functions over the given ones. -/
def introduce (L : Ledger) (n : Nat) (argss : List (List Var)) : Ledger :=
  { L with
    nextVar := L.nextVar + n
    firstVar_le := Nat.le_add_right_of_le L.firstVar_le
    mints := L.mints ++ argss.map .skolem }

@[simp]
theorem introduce_zero_nil (L : Ledger) : L.introduce 0 [] = L := by
  simp [introduce]

theorem introduce_introduce (L : Ledger) (n n' : Nat) (argss argss' : List (List Var)) :
    (L.introduce n argss).introduce n' argss' = L.introduce (n + n') (argss ++ argss') := by
  simp [introduce, Nat.add_assoc]

theorem continues_introduce (L : Ledger) (n : Nat) (argss : List (List Var)) :
    L.Continues (L.introduce n argss) :=
  ⟨rfl, rfl, Nat.le_add_right _ _, rfl, List.prefix_append _ _⟩

/-- From one state to another, so many fresh variables and such Skolem functions were introduced,
and nothing else was done. -/
structure Brings (L : Ledger) (n : Nat) (argss : List (List Var)) (s s' : Conversion) : Prop where
  fits : (L.introduce n argss).Fits s'
  vocabulary : s.vocabulary.Extends s'.vocabulary
  clauses : s'.clauses = s.clauses
  journal : s'.journal = s.journal

theorem Brings.refl (h : L.Fits s) : L.Brings 0 [] s s :=
  ⟨L.introduce_zero_nil.symm ▸ h, .refl _, rfl, rfl⟩

theorem Brings.trans {s'' : Conversion} (h : L.Brings n argss s s')
    (h' : (L.introduce n argss).Brings n' argss' s' s'') :
    L.Brings (n + n') (argss ++ argss') s s'' :=
  ⟨introduce_introduce L n n' argss argss' ▸ h'.fits, h.vocabulary.trans h'.vocabulary,
    h'.clauses.trans h.clauses, h'.journal.trans h.journal⟩

/-- Wherever the step comes to an end, so many fresh variables and such Skolem functions were
introduced, and the answer is as `post` says by the ledger with the functions in it. -/
def Introduces (L : Ledger) (x : ConvertM α) (n : Nat) (argss : List (List Var))
    (post : Ledger → α → Prop) : Prop :=
  ∀ s a s', L.Fits s → x s = .ok a s' → L.Brings n argss s s' ∧ post (L.introduce n argss) a

namespace Introduces

variable {P : Ledger → α → Prop} {Q : Ledger → β → Prop}

theorem pure {a : α} (h : P L a) : L.Introduces (Pure.pure a) 0 [] P := by
  intro s b s' hfits hrun
  obtain ⟨rfl, rfl⟩ := pure_eq_ok.1 hrun
  rw [introduce_zero_nil]
  exact ⟨.refl hfits, h⟩

theorem bind {x : ConvertM α} {f : α → ConvertM β} (h : L.Introduces x n argss P)
    (hf : ∀ a, P (L.introduce n argss) a → (L.introduce n argss).Introduces (f a) n' argss' Q) :
    L.Introduces (x >>= f) (n + n') (argss ++ argss') Q := by
  intro s b s'' hfits hrun
  obtain ⟨a, s', hx, hfa⟩ := bind_eq_ok.1 hrun
  obtain ⟨hbrings, ha⟩ := h s a s' hfits hx
  obtain ⟨hbrings', hb⟩ := hf a ha s' b s'' hbrings.fits hfa
  exact ⟨hbrings.trans hbrings', introduce_introduce L n n' argss argss' ▸ hb⟩

/-- An answer made of that of a step. -/
theorem map {x : ConvertM α} {g : α → β} (h : L.Introduces x n argss P)
    (hg : ∀ a, P (L.introduce n argss) a → Q (L.introduce n argss) (g a)) :
    L.Introduces (do return g (← x)) n argss Q := by
  have hboth := h.bind (Q := Q) fun a ha => .pure (hg a ha)
  rwa [List.append_nil] at hboth

end Introduces

theorem introduces_freshLike (L : Ledger) (x : Var) :
    L.Introduces (freshLike x) 1 [] fun _ y => y = ⟨L.nextVar⟩ := by
  intro s a s' hfits hrun
  cases hrun
  refine ⟨⟨⟨?_, ?_⟩, s.vocabulary.extends_newVar _, rfl, rfl⟩, ?_⟩
  · simp [introduce, hfits.vars]
  · simp [introduce, hfits.funs]
  · exact congrArg Var.mk hfits.vars

/-- A new Skolem function may be entered with any arguments. -/
theorem introduces_newSkolem (L : Ledger) (us : List Var) :
    L.Introduces newSkolem 0 [us] fun L' f => L'.Records f (.skolem us) := by
  intro s a s' hfits hrun
  cases hrun
  refine ⟨⟨⟨?_, ?_⟩, s.vocabulary.extends_newFun _ .skolem, rfl, rfl⟩, L.mints.length, ?_, ?_⟩
  · simp [introduce, hfits.vars]
  · simp [introduce, hfits.funs, Nat.add_assoc]
  · simp [introduce]
  · exact congrArg (FunSym.mk · Origin.skolem) hfits.funs

/-! ### Entering a quantifier -/

/-- A scope stays accounted for when what is added is. -/
theorem accounts_place_add (hL : L.Continues L') {x y : Var} (ht : L'.Accounts t)
    (h : y = x ∨ L.Accounts (σ.place y)) : L'.Accounts (Scope.place (σ.add x t) y) := by
  rw [Scope.place_add]
  split
  · exact ht
  · rename_i hy
    exact hL.accounts (h.resolve_left hy)

theorem introduces_bindFresh (xs : List Var) (hus : σ.universals = us.map .var) :
    L.Introduces (σ.bindFresh xs) xs.length [] fun L' σ' =>
      σ'.universals = (us ++ freshVars L.nextVar xs.length).map .var ∧
        ∀ x, x ∈ xs ∨ L.Accounts (σ.place x) → L'.Accounts (σ'.place x) := by
  induction xs generalizing L σ us with
  | nil => exact .pure ⟨by simpa [freshVars] using hus, by simp⟩
  | cons x xs ih =>
    rw [Scope.bindFresh, List.length_cons, Nat.add_comm]
    refine (introduces_freshLike L x).bind ?_
    rintro _ rfl
    have hcont := continues_introduce L 1 []
    have hvar : (L.introduce 1 []).Accounts (.var ⟨L.nextVar⟩) :=
      accounts_var ⟨L.firstVar_le, Nat.lt_succ_self _⟩
    have hadd : Scope.universals (σ.add x (.var ⟨L.nextVar⟩)) =
        (us ++ [(⟨L.nextVar⟩ : Var)]).map .var := by
      rw [Scope.universals_add_var, hus, List.map_append]
      rfl
    refine fun s σ' s' hfits hrun => ?_
    obtain ⟨hbrings, huniversals, hplace⟩ := ih hadd s σ' s' hfits hrun
    refine ⟨hbrings, ?_, fun y hy => hplace y ?_⟩
    · rw [huniversals, Nat.add_comm, freshVars_succ, List.append_assoc]
      rfl
    · rw [List.mem_cons, or_assoc, or_left_comm] at hy
      exact hy.imp_right (accounts_place_add hcont hvar)

theorem introduces_bindSkolem (xs : List Var)
    (hfresh : ∀ x ∈ us, L.firstVar ≤ x.id ∧ x.id < L.nextVar) :
    L.Introduces (σ.bindSkolem (us.map .var) xs) 0 (List.replicate xs.length us) fun L' σ' =>
      σ'.universals = σ.universals ∧
        ∀ x, x ∈ xs ∨ L.Accounts (σ.place x) → L'.Accounts (σ'.place x) := by
  induction xs generalizing L σ with
  | nil => exact .pure ⟨rfl, by simp⟩
  | cons x xs ih =>
    rw [Scope.bindSkolem]
    show L.Introduces _ (0 + 0) ([us] ++ List.replicate xs.length us) _
    refine (introduces_newSkolem L us).bind fun f hf => ?_
    have hcont := continues_introduce L 0 [us]
    have hterm : (L.introduce 0 [us]).Accounts (f.appliedTo (us.map .var)) :=
      accounts_appliedTo hf hfresh
    have hadd := Scope.universals_add_appliedTo σ x f (us.map .var)
    refine fun s σ' s' hfits hrun => ?_
    obtain ⟨hbrings, huniversals, hplace⟩ :=
      ih (L := L.introduce 0 [us]) hfresh s σ' s' hfits hrun
    refine ⟨hbrings, huniversals.trans hadd, fun y hy => hplace y ?_⟩
    rw [List.mem_cons, or_assoc, or_left_comm] at hy
    exact hy.imp_right (accounts_place_add hcont hterm)

/-! ### Taking quantifiers away -/

/-- In the scope of the fresh variables `us`, the symbols of a term are as the ledger says. -/
structure Scopes (L : Ledger) (us : List Var) (σ : Scope) (t : Term) : Prop where
  universals : σ.universals = us.map .var
  fresh : ∀ x ∈ us, L.firstVar ≤ x.id ∧ x.id < L.nextVar
  known : ∀ f ∈ t.funs, f ∈ L.known
  place : ∀ x ∈ t.free, L.Accounts (σ.place x)

theorem Scopes.mono (h : L.Scopes us σ t) (hL : L.Continues L') : L'.Scopes us σ t := by
  refine ⟨h.universals, fun x hx => ?_, hL.known ▸ h.known, fun x hx => hL.accounts (h.place x hx)⟩
  rw [hL.firstVar]
  exact ⟨(h.fresh x hx).1, Nat.lt_of_lt_of_le (h.fresh x hx).2 hL.nextVar⟩

theorem Scopes.head {f : FunSym} (h : L.Scopes us σ (.call f args)) : f ∈ L.known :=
  h.known f (funs_call f args ▸ List.mem_cons_self)

/-- The arguments of an application are in the scope it is in. -/
theorem Scopes.of_call {f : FunSym} (h : L.Scopes us σ (.call f args)) :
    ∀ a ∈ args, L.Scopes us σ a := by
  obtain ⟨huniversals, hfresh, hknown, hplace⟩ := h
  rw [funs_call, List.forall_mem_cons, List.forall_mem_flatMap] at hknown
  rw [free_call, List.forall_mem_flatMap] at hplace
  exact fun a ha => ⟨huniversals, hfresh, hknown.2 a ha, hplace a ha⟩

/-- So are the arguments of an operation. -/
theorem Scopes.of_node {op : Op} (h : L.Scopes us σ (.node op args)) :
    ∀ a ∈ args, L.Scopes us σ a := by
  obtain ⟨huniversals, hfresh, hknown, hplace⟩ := h
  rw [funs_node, List.forall_mem_flatMap] at hknown
  rw [free_node, List.forall_mem_flatMap] at hplace
  exact fun a ha => ⟨huniversals, hfresh, hknown a ha, hplace a ha⟩

/-- What is free under a quantifier is bound by it or accounted for. -/
theorem Scopes.of_quant {q : Quantifier} {xs : List Var} {body : Term}
    (h : L.Scopes us σ (.quant q xs body)) :
    ∀ x ∈ body.free, x ∈ xs ∨ L.Accounts (σ.place x) := by
  refine fun x hx => or_iff_not_imp_left.2 fun hxs => h.place x ?_
  rw [free_quant, List.mem_filter]
  exact ⟨hx, decide_eq_true hxs⟩

/-- Terms are gone through from left to right, each with the ledger that the ones before it left. -/
theorem introduces_matrixAll {ts : List Term}
    (hts : ∀ a ∈ ts, ∀ {L : Ledger}, L.Scopes us σ a →
      L.Introduces (matrix a σ) a.universalCount (a.skolemArgs us L.nextVar) Accounts)
    (hs : ∀ a ∈ ts, L.Scopes us σ a) :
    L.Introduces (matrixAll ts σ) (universalCountAll ts) (skolemArgsAll us L.nextVar ts)
      fun L' ms => ms.length = ts.length ∧ ∀ m ∈ ms, L'.Accounts m := by
  induction ts generalizing L with
  | nil => exact .pure ⟨rfl, by simp⟩
  | cons t ts ih =>
    rw [List.forall_mem_cons] at hts hs
    rw [matrixAll, universalCountAll, skolemArgsAll]
    refine (hts.1 hs.1).bind fun m hm => ?_
    have hcont := continues_introduce L t.universalCount (t.skolemArgs us L.nextVar)
    refine (ih hts.2 fun a ha => (hs.2 a ha).mono hcont).map fun ms hms => ?_
    have hcont' := continues_introduce (L.introduce t.universalCount (t.skolemArgs us L.nextVar))
      (universalCountAll ts) (skolemArgsAll us (L.nextVar + t.universalCount) ts)
    exact ⟨congrArg (· + 1) hms.1, List.forall_mem_cons.2 ⟨hcont'.accounts hm, hms.2⟩⟩

/-- **Taking the quantifiers away enters the Skolem functions in the ledger**, with the arguments
that are read off the term; and what is left is accounted for. -/
theorem introduces_matrix (h : L.Scopes us σ t) (hk : t.KeepsArities) :
    L.Introduces (matrix t σ) t.universalCount (t.skolemArgs us L.nextVar) Accounts := by
  induction t using Term.induct generalizing L us σ with
  | var x =>
    rw [matrix]
    exact .pure (h.place x (by simp))
  | const f => exact .pure (accounts_const (h.known f (by simp)))
  | call f args ih =>
    have hks := keepsArities_call.1 hk
    rw [matrix_call, universalCount, skolemArgs]
    refine (introduces_matrixAll (fun a ha L h => ih a ha h (hks a ha)) h.of_call).map
      fun ms hms => ?_
    exact accounts_call h.head hms.2
  | node op args ih =>
    obtain ⟨htakes, hks⟩ := keepsArities_node.1 hk
    rw [matrix_node, universalCount, skolemArgs]
    refine (introduces_matrixAll (fun a ha L h => ih a ha h (hks a ha)) h.of_node).map
      fun ms hms => ?_
    exact accounts_node.2 ⟨hms.1 ▸ htakes, hms.2⟩
  | quant q xs body ih =>
    have hk' := keepsArities_quant.1 hk
    have hbody := h.of_quant
    obtain ⟨huniversals, hfresh, hknown, -⟩ := h
    rw [funs_quant] at hknown
    cases q with
    | all =>
      rw [matrix, universalCount, skolemArgs]
      refine (introduces_bindFresh xs huniversals).bind ?_
      rintro σ' ⟨huniversals', hplace'⟩
      refine ih ⟨huniversals', fun x hx => ?_, hknown, fun x hx => hplace' x (hbody x hx)⟩ hk'
      rcases List.mem_append.1 hx with hx | hx
      · exact ⟨(hfresh x hx).1, Nat.lt_add_right _ (hfresh x hx).2⟩
      · exact ⟨Nat.le_trans L.firstVar_le (mem_freshVars.1 hx).1, (mem_freshVars.1 hx).2⟩
    | exist =>
      rw [matrix, universalCount, skolemArgs, huniversals, ← Nat.zero_add body.universalCount]
      refine (introduces_bindSkolem xs hfresh).bind ?_
      rintro σ' ⟨huniversals', hplace'⟩
      exact ih ⟨huniversals'.trans huniversals, hfresh, hknown,
        fun x hx => hplace' x (hbody x hx)⟩ hk'
  | _ => exact .pure (accounts_of_isConstant rfl)

/-! ### Adding a formula -/

/-- The ledger of a conversion that is about to add a formula over the given function symbols. -/
def blank (known : List FunSym) (voc : Vocabulary) : Ledger where
  known := known
  firstVar := voc.vars.size
  nextVar := voc.vars.size
  firstVar_le := Nat.le_refl _
  firstFun := voc.funs.size
  mints := []

/-- The ledger of a conversion that has just taken the quantifiers away: `normal` is the normal form
of the closed formula, of which the function symbols are `known`. -/
def ofMatrix (known : List FunSym) (voc : Vocabulary) (normal : Term) : Ledger :=
  (blank known voc).introduce normal.universalCount (normal.skolemArgs [] voc.vars.size)

/-- Taking the quantifiers away from the normal form of a closed formula leaves what this ledger
accounts for. -/
theorem brings_matrix {known : List FunSym} {m : Term} {s s' : Conversion} (hk : t.KeepsArities)
    (hclosed : t.free = []) (hknown : ∀ f ∈ t.funs, f ∈ known)
    (hrun : matrix (t.nnf true) .empty s = .ok m s') :
    (blank known s.vocabulary).Brings (t.nnf true).universalCount
        ((t.nnf true).skolemArgs [] s.vocabulary.vars.size) s s' ∧
      (ofMatrix known s.vocabulary (t.nnf true)).Accounts m := by
  have hsigned := hk.signed true
  -- nothing is in the ledger before
  have hscopes : (blank known s.vocabulary).Scopes [] .empty (t.nnf true) := by
    refine ⟨rfl, by simp, fun f hf => ?_, fun x hx => ?_⟩
    · rw [hsigned.funs_nnf] at hf
      exact hknown f hf
    · rw [hsigned.free_nnf, hclosed] at hx
      exact absurd hx List.not_mem_nil
  exact introduces_matrix hscopes (hsigned.keepsArities_nnf hk) s m s' ⟨rfl, rfl⟩ hrun

/-- The ledger of a conversion that added a formula: `normal` is the normal form of the closed
formula, and `gs` are the formulas that were given names. -/
def ofAdding (s : Conversion) (t normal : Term) (gs : List Term) : Ledger :=
  ((blank t.funs s.vocabulary).introduce normal.universalCount
    (normal.skolemArgs [] s.vocabulary.vars.size)).define gs

section OfAdding

variable {normal g : Term} {gs : List Term} {k : Nat} {xs : List Var}

theorem mints_ofAdding (s : Conversion) (t normal : Term) (gs : List Term) :
    (ofAdding s t normal gs).mints =
      (normal.skolemArgs [] s.vocabulary.vars.size).map .skolem ++ gs.map .definition := by
  simp [ofAdding, define, introduce, blank]

/-- The Skolem functions are recorded first. -/
theorem records_skolem (h : (normal.skolemArgs [] s.vocabulary.vars.size)[k]? = some xs) :
    (ofAdding s t normal gs).Records ⟨s.vocabulary.funs.size + k, .skolem⟩ (.skolem xs) := by
  refine ⟨k, ?_, rfl⟩
  rw [mints_ofAdding, List.getElem?_append_left, List.getElem?_map, h, Option.map_some]
  rw [List.length_map]
  exact (List.getElem?_eq_some_iff.1 h).1

/-- The names are recorded after them. -/
theorem records_definition (h : gs[k]? = some g) :
    (ofAdding s t normal gs).Records ⟨s.vocabulary.funs.size +
      (normal.skolemArgs [] s.vocabulary.vars.size).length + k, .definition⟩ (.definition g) := by
  refine ⟨(normal.skolemArgs [] s.vocabulary.vars.size).length + k, ?_, ?_⟩
  · rw [mints_ofAdding, List.getElem?_append_right, List.length_map, Nat.add_sub_cancel_left,
      List.getElem?_map, h, Option.map_some]
    rw [List.length_map]
    exact Nat.le_add_right _ _
  · rw [Nat.add_assoc]
    rfl

end OfAdding

end Ledger

namespace Conversion

open ConvertM Term

variable {t normal : Term} {gs : List Term} {s s' : Conversion}

/-- From one state to another, a formula was added, and everything is as the ledger says then. -/
structure Audited (t normal : Term) (gs : List Term) (s s' : Conversion) : Prop where
  fits : (Ledger.ofAdding s t normal gs).Fits s'
  vocabulary : s.vocabulary.Extends s'.vocabulary
  clauses : ∃ cs, s'.clauses = s.clauses ++ cs ∧
    ∀ c ∈ cs, ∀ l ∈ c.literals, (Ledger.ofAdding s t normal gs).Accounts l
  journal : s.Enters s' (namesFrom (s.vocabulary.funs.size +
    (normal.skolemArgs [] s.vocabulary.vars.size).length) gs)

/-- A run that adds a closed formula takes its quantifiers away, and makes clauses of what is left;
what it reports apart from that introduces no names. -/
theorem exists_of_addClosed {before : Nat} (hk : t.KeepsArities)
    (h : addClosed before t s = .ok () s') : ∃ m s₁ s₂ s₃,
      s₁.vocabulary = s.vocabulary ∧ s₁.clauses = s.clauses ∧ s.Enters s₁ [] ∧
        matrix (t.nnf true) .empty s₁ = .ok m s₂ ∧
        clausifyVia (convertWithin 3) (convertWithin 3) m s₂ = .ok () s₃ ∧
        s'.vocabulary = s₃.vocabulary ∧ s'.clauses = s₃.clauses ∧ s₃.Enters s' [] := by
  obtain ⟨_, s₁, hfirst, hsteps⟩ := bind_eq_ok.1 h
  obtain ⟨_, s₅, hconvert, hlast⟩ := bind_eq_ok.1 hsteps
  rw [nestingLimit, convertWithin_succ, convertVia, lowerNot_eq_nnf hk] at hconvert
  obtain ⟨_, s₂, hnormal, hconvert⟩ := bind_eq_ok.1 hconvert
  obtain ⟨heq, rfl⟩ := ofExcept_eq_ok.1 hnormal
  obtain rfl := Except.ok.inj heq
  obtain ⟨_, s₃, hsecond, hconvert⟩ := bind_eq_ok.1 hconvert
  obtain ⟨m, s₄, hmatrix, hclausify⟩ := bind_eq_ok.1 hconvert
  have h₁ := eq_of_report hfirst
  have h₃ := eq_of_report hsecond
  have h₅ : s' = { s₅ with journal := s'.journal } := eq_of_report hlast
  exact ⟨m, s₃, s₄, s₅, by rw [h₃, h₁], by rw [h₃, h₁],
    (enters_of_report hfirst).trans (enters_of_report hsecond), hmatrix, hclausify, by rw [h₅],
    by rw [h₅], enters_of_report hlast⟩

/-- **Adding a formula is covered by the ledger**, from the closed formula to the last
definition. -/
theorem exists_add_audited (hk : t.KeepsArities) (s : Conversion) :
    ∃ u s' gs, prepared s.config t = .ok u ∧ add t s = .ok () s' ∧
      Audited t (u.universalClosure.nnf true) gs s s' := by
  obtain ⟨u, hu, huk, hfuns⟩ := exists_prepared_funs s.config hk
  obtain ⟨s', hrun⟩ := exists_add hk s
  have hclosed := keepsArities_universalClosure huk
  obtain ⟨m, s₁, s₂, s₃, hv₁, hc₁, hj₁, hmatrix, hclausify, hv', hc', hj'⟩ :=
    exists_of_addClosed hclosed (add_eq_addClosed hu ▸ hrun)
  have hknown : ∀ f ∈ u.universalClosure.funs, f ∈ t.funs := fun f hf =>
    hfuns f (u.funs_universalClosure ▸ hf)
  obtain ⟨hbrings, hm⟩ :=
    Ledger.brings_matrix hclosed u.free_universalClosure hknown hmatrix
  rw [hv₁] at hbrings hm
  obtain ⟨gs, hposts, -⟩ :=
    Ledger.covers_clausifyVia (Ledger.covers_convertWithin 3) hm s₂ () s₃ hbrings.fits hclausify
  have hsize : s₂.vocabulary.funs.size = s.vocabulary.funs.size +
      ((u.universalClosure.nnf true).skolemArgs [] s.vocabulary.vars.size).length := by
    rw [hbrings.fits.funs]
    simp [Ledger.introduce, Ledger.blank]
  refine ⟨u, s', gs, hu, hrun, ⟨?_, ?_, ?_, ?_⟩⟩
  · exact ⟨hv' ▸ hposts.fits.vars, hv' ▸ hposts.fits.funs⟩
  · exact hv' ▸ hv₁ ▸ hbrings.vocabulary.trans hposts.vocabulary
  · obtain ⟨cs, hcs, haccounts⟩ := hposts.clauses
    exact ⟨cs, by rw [hc', hcs, hbrings.clauses, hc₁], haccounts⟩
  · have hjournal := ((hj₁.trans (.of_eq hbrings.journal)).trans hposts.journal).trans hj'
    rwa [List.append_nil, List.nil_append, hsize] at hjournal

end Conversion

end ClauseForm
