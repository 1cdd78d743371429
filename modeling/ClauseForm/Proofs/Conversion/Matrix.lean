import ClauseForm.Proofs.Conversion.Scope
import ClauseForm.Proofs.Semantics.Replacement

/-!
# Taking the quantifiers away

The matrix of a formula in negation normal form is a formula without quantifiers,
in negation normal form as well, over fresh variables and new functions. In every
scope that fits and binds its free variables, it is made without a fault
(`ClauseForm.ConvertM.ensures_matrix`).

For what the matrix says, the quantifiers have to stand positively
(`ClauseForm.Term.Monotone`). The matrix then implies the formula, for suitable values
of the fresh variables; and the formula implies the matrix, for a suitable meaning
of the new functions. Both are parts of `ClauseForm.Conversion.Skolemizes`.
-/

universe u

namespace ClauseForm

open Interpretation

namespace Conversion

/-- A formula without quantifiers in negation normal form, made of symbols allotted so far. -/
structure IsMatrix (voc : Vocabulary) (m : Term) : Prop where
  normal : m.Normal
  quantifierFree : m.QuantifierFree
  isFormula : m.isFormula = true
  within : m.Within voc
  small : ∀ y ∈ m.vars, y.id < voc.vars.size

theorem IsMatrix.mono {voc voc' : Vocabulary} {m : Term} (h : IsMatrix voc m)
    (hv : voc.vars.size ≤ voc'.vars.size) (hf : voc.funs.size ≤ voc'.funs.size) :
    IsMatrix voc' m :=
  ⟨h.normal, h.quantifierFree, h.isFormula, h.within.mono hf,
    fun y hy => Nat.lt_of_lt_of_le (h.small y hy) hv⟩

/-- The step from one state to another takes the quantifiers of formulas away, one by one, in a
scope. If the quantifiers stand positively, every valuation can be changed on the fresh variables so
that what is left implies the formula; and the new functions can be given a meaning under which the
formula implies what is left. -/
structure Skolemizes (D : Type u) (σ : Scope) (ts ms : List Term) (s s' : Conversion) : Prop where
  grows : s.Grows s'
  clauses : s'.clauses = s.clauses
  isMatrix : ∀ m ∈ ms, IsMatrix s'.vocabulary m
  sound : (∀ t ∈ ts, t.Monotone) → ∀ (I : Interpretation D) (v : Var → D),
    ∃ v' : Var → D, (∀ y, y.id < s.vocabulary.vars.size → v' y = v y) ∧
      List.Forall₂ (fun t m => I.Holds m v' → I.Holds t (σ.read I v)) ts ms
  complete : (∀ t ∈ ts, t.Monotone) → ∀ I : Interpretation D,
    ∃ J, I.AgreesOff (s.vocabulary.Minted s'.vocabulary) J ∧
      ∀ v, List.Forall₂ (fun t m => I.Holds t (σ.read I v) → J.Holds m v) ts ms

namespace Skolemizes

variable {D : Type u} {σ : Scope} {t m : Term} {ts ms : List Term} {s s' s'' : Conversion}

theorem nil (s : Conversion) : Skolemizes D σ [] [] s s :=
  ⟨.refl s, rfl, by simp, fun _ _ v => ⟨v, fun _ _ => rfl, .nil⟩,
    fun _ I => ⟨I, .refl I _, fun _ => .nil⟩⟩

/-- A formula without quantifiers only changes its variables. -/
theorem plain (hσ : σ.Fits s.vocabulary) (hn : t.Normal) (hq : t.QuantifierFree)
    (hf : t.isFormula = true) (hw : t.Within s.vocabulary)
    (hfree : ∀ x ∈ t.free, (σ.get? x).isSome = true) :
    Skolemizes D σ [t] [t.subst σ.place] s s := by
  rw [Term.free_eq_vars hq] at hfree
  have hplace : ∀ x ∈ t.vars, ∃ u, σ.get? x = some u ∧ σ.place x = u := fun x hx => by
    obtain ⟨u, hu⟩ := Option.isSome_iff_exists.1 (hfree x hx)
    exact ⟨u, hu, by rw [Scope.place, hu, Option.getD_some]⟩
  have hobject : ∀ x ∈ t.vars, (σ.place x).isObject = true := fun x hx => by
    obtain ⟨u, hu, rfl⟩ := hplace x hx
    exact hσ.object hu
  refine ⟨.refl s, rfl, ?_, fun _ I v => ⟨v, fun _ _ => rfl, .cons ?_ .nil⟩,
    fun _ I => ⟨I, .refl I _, fun v => .cons ?_ .nil⟩⟩
  · rw [List.forall_mem_singleton]
    refine ⟨hn.subst hf, hq.subst hobject, Term.isFormula_subst hf hobject, fun f hfun => ?_,
      fun y hy => ?_⟩
    · rcases Term.mem_funs_subst.1 hfun with hfun | ⟨x, hx, hfun⟩
      · exact hw f hfun
      · obtain ⟨u, hu, rfl⟩ := hplace x hx
        exact hσ.within hu f hfun
    · rw [Term.vars_subst, List.mem_flatMap] at hy
      obtain ⟨x, hx, hy⟩ := hy
      obtain ⟨u, hu, rfl⟩ := hplace x hx
      exact hσ.small (hσ.vars hu y hy)
  · exact (I.holds_subst σ.place v hf hq).1
  · exact (I.holds_subst σ.place v hf hq).2

/-- Taking the quantifiers of one formula away, and then those of the others. -/
theorem cons (hσ : σ.Fits s.vocabulary) (hw : ∀ t ∈ ts, t.Within s.vocabulary)
    (hfree : ∀ t ∈ ts, ∀ x ∈ t.free, (σ.get? x).isSome = true) (h : Skolemizes D σ [t] [m] s s')
    (h' : Skolemizes D σ ts ms s' s'') : Skolemizes D σ (t :: ts) (m :: ms) s s'' := by
  have hm : IsMatrix s'.vocabulary m := h.isMatrix m List.mem_cons_self
  refine ⟨h.grows.trans h'.grows, h'.clauses.trans h.clauses, ?_, fun hmono I v => ?_,
    fun hmono I => ?_⟩
  · rw [List.forall_mem_cons]
    exact ⟨hm.mono h'.grows.vars h'.grows.funs, h'.isMatrix⟩
  · rw [List.forall_mem_cons] at hmono
    obtain ⟨v₁, hv₁, hd⟩ := h.sound (by simpa using hmono.1) I v
    obtain ⟨v₂, hv₂, htl⟩ := h'.sound hmono.2 I v₁
    refine ⟨v₂, fun y hy => (hv₂ y (Nat.lt_of_lt_of_le hy h.grows.vars)).trans (hv₁ y hy), ?_⟩
    refine .cons (fun hv => (List.forall₂_cons.1 hd).1 ?_) ?_
    · -- the second half leaves the variables of the first matrix alone
      exact (holds_congr fun y hy => hv₂ y (hm.small y (Term.mem_vars_of_mem_free hy))).1 hv
    · rw [List.forall₂_iff_get] at htl ⊢
      refine ⟨htl.1, fun i hi hi' hv => (holds_congr fun x hx => ?_).2 (htl.2 i hi hi' hv)⟩
      exact (hσ.read_congr (.refl I (s.vocabulary.Minted s.vocabulary))
        (fun y hy => hv₁ y (hσ.small hy)) (hfree _ (List.get_mem ts ⟨i, hi⟩) x hx)).symm
  · rw [List.forall_mem_cons] at hmono
    obtain ⟨J, hIJ, hd⟩ := h.complete (by simpa using hmono.1) I
    obtain ⟨K, hJK, htl⟩ := h'.complete hmono.2 J
    refine ⟨K, hIJ.trans_minted hJK h.grows.funs h'.grows.funs, fun v => ?_⟩
    refine .cons (fun hv => ?_) ?_
    · exact (hJK.holds_within hm.within v).2 ((List.forall₂_cons.1 (hd v)).1 hv)
    · have htl := htl v
      rw [List.forall₂_iff_get] at htl ⊢
      refine ⟨htl.1, fun i hi hi' hv => htl.2 i hi hi' ?_⟩
      exact (hIJ.holds_iff (hw _ (List.get_mem ts ⟨i, hi⟩)).not_minted fun x hx =>
        hσ.read_congr hIJ (fun _ _ => rfl) (hfree _ (List.get_mem ts ⟨i, hi⟩) x hx)).2 hv

/-- The matrix of a conjunction or disjunction. -/
theorem junction {op : Op} (hop : op = .and ∨ op = .or) (h : Skolemizes D σ ts ms s s') :
    Skolemizes D σ [.node op ts] [.node op ms] s s' := by
  have hpred := Op.isPredicate_junction hop
  have hnormal : (Term.node op ms).Normal := by
    have hargs : ∀ m ∈ ms, m.Normal := fun m hm => (h.isMatrix m hm).normal
    rcases hop with rfl | rfl
    · exact .conj hargs
    · exact .disj hargs
  have hinv : (Term.node op ts).Monotone → ∀ t ∈ ts, t.Monotone := by
    intro hmono
    cases hmono with
    | plain hq => exact fun t ht => .plain (Term.quantifierFree_node.1 hq t ht)
    | conj hargs | disj hargs => exact hargs
  have htakes : op.takes ms.length = true := by
    rcases hop with rfl | rfl
    · rfl
    · rfl
  refine ⟨h.grows, h.clauses, ?_, fun hmono I v => ?_, fun hmono I => ?_⟩
  · rw [List.forall_mem_singleton]
    refine ⟨hnormal, Term.quantifierFree_node.2 fun m hm => (h.isMatrix m hm).quantifierFree,
      (Term.isFormula_connective hpred).2 ⟨htakes, fun m hm => (h.isMatrix m hm).isFormula⟩,
      Term.within_node.2 fun m hm => (h.isMatrix m hm).within, fun y hy => ?_⟩
    rw [Term.vars_node, List.mem_flatMap] at hy
    obtain ⟨m, hm, hy⟩ := hy
    exact (h.isMatrix m hm).small y hy
  · obtain ⟨v', hv', hs⟩ := h.sound (hinv (hmono _ List.mem_cons_self)) I v
    refine ⟨v', hv', .cons ?_ .nil⟩
    rw [holds_connective I _ hpred, holds_connective I _ hpred]
    refine Op.connects_mono hop ?_
    rw [List.forall₂_map_left_iff, List.forall₂_map_right_iff]
    exact hs.flip
  · obtain ⟨J, hIJ, hc⟩ := h.complete (hinv (hmono _ List.mem_cons_self)) I
    refine ⟨J, hIJ, fun v => .cons ?_ .nil⟩
    rw [holds_connective I _ hpred, holds_connective J _ hpred]
    refine Op.connects_mono hop ?_
    rw [List.forall₂_map_left_iff, List.forall₂_map_right_iff]
    exact hc v

/-- A biconditional is looked at only if it holds no quantifiers. -/
theorem iff {a b m n : Term} (hq : ¬(Term.node .iff [a, b]).QuantifierFree)
    (h : Skolemizes D σ [a, b] [m, n] s s') :
    Skolemizes D σ [.node .iff [a, b]] [.node .iff [m, n]] s s' := by
  have hm := h.isMatrix m (by simp)
  have hn := h.isMatrix n (by simp)
  -- a quantifier below it stands positively and negatively at once
  have hinv : ¬∀ t ∈ [Term.node .iff [a, b]], t.Monotone := by
    intro hmono
    cases hmono _ List.mem_cons_self with
    | plain h => exact hq h
  refine ⟨h.grows, h.clauses, ?_, fun hmono => absurd hmono hinv, fun hmono => absurd hmono hinv⟩
  rw [List.forall_mem_singleton]
  refine ⟨.iff hm.normal hn.normal, Term.quantifierFree_node.2 ?_,
    (Term.isFormula_connective rfl).2 ⟨rfl, ?_⟩, Term.within_node.2 ?_, ?_⟩
  · simp [hm.quantifierFree, hn.quantifierFree]
  · simp [hm.isFormula, hn.isFormula]
  · simp [hm.within, hn.within]
  · intro y hy
    simp only [Term.vars_node, List.flatMap_cons, List.flatMap_nil, List.append_nil,
      List.mem_append] at hy
    exact hy.elim (hm.small y) (hn.small y)

/-- The matrix of a universally quantified formula. -/
theorem all {σ' : Scope} {vars : List Var} {body : Term} (hσ : σ.Fits s.vocabulary)
    (henters : σ.Enters vars σ' s s')
    (hfree : ∀ x ∈ (Term.quant .all vars body).free, (σ.get? x).isSome = true)
    (hvalues : ∀ v w : Var → D, ∃ v' : Var → D,
      (∀ y, y.id < s.vocabulary.vars.size → v' y = v y) ∧
        ∀ I x, x ∈ vars → σ'.read I v' x = w x)
    (h : Skolemizes D σ' [body] [m] s' s'') :
    Skolemizes D σ [.quant .all vars body] [m] s s'' := by
  have hbody : (∀ t ∈ [Term.quant .all vars body], t.Monotone) → ∀ t ∈ [body], t.Monotone := by
    simpa using Term.Monotone.body
  refine ⟨henters.grows.trans h.grows, h.clauses.trans henters.clauses, h.isMatrix,
    fun hmono I v => ?_, fun hmono I => ?_⟩
  · by_cases hall : I.Holds (.quant .all vars body) (σ.read I v)
    · exact ⟨v, fun _ _ => rfl, .cons (fun _ => hall) .nil⟩
    · -- give the fresh variables the values of a counterexample
      rw [holds_all] at hall
      simp only [Classical.not_forall] at hall
      obtain ⟨w, hw, hfails⟩ := hall
      obtain ⟨v₁, hv₁, hnew⟩ := hvalues v w
      obtain ⟨v₂, hv₂, hs⟩ := h.sound (hbody hmono) I v₁
      refine ⟨v₂, fun y hy => (hv₂ y (Nat.lt_of_lt_of_le hy henters.grows.vars)).trans (hv₁ y hy),
        .cons (fun hm => absurd ?_ hfails) .nil⟩
      refine (holds_congr fun x hx => ?_).1 ((List.forall₂_cons.1 hs).1 hm)
      by_cases hxv : x ∈ vars
      · exact hnew I x hxv
      · rw [henters.read_other I v₁ x hxv, hw x hxv]
        refine hσ.read_congr (.refl I (s.vocabulary.Minted s.vocabulary))
          (fun y hy => hv₁ y (hσ.small hy)) (hfree x ?_)
        rw [Term.free_quant, List.mem_filter]
        exact ⟨hx, decide_eq_true hxv⟩
  · obtain ⟨J, hIJ, hc⟩ := h.complete (hbody hmono) I
    refine ⟨J, hIJ.mono fun f hf => hf.mono henters.grows.funs (Nat.le_refl _), fun v => ?_⟩
    refine .cons (fun hall => (List.forall₂_cons.1 (hc v)).1 ?_) .nil
    exact (holds_all I _ vars body).1 hall _ (henters.read_other I v)

/-- The matrix of an existentially quantified formula. -/
theorem exist {σ' : Scope} {vars : List Var} {body : Term} (hσ : σ.Fits s.vocabulary)
    (henters : σ.Enters vars σ' s s') (hw : body.Within s.vocabulary)
    (hfree : ∀ x ∈ (Term.quant .exist vars body).free, (σ.get? x).isSome = true)
    (hvalues : ∀ (I : Interpretation D) (g : List D → Var → D),
      ∃ J, I.AgreesOff (s.vocabulary.Minted s'.vocabulary) J ∧
        ∀ v x, x ∈ vars → σ'.read J v x = g (σ.universals.map (J.denote v)) x)
    (h : Skolemizes D σ' [body] [m] s' s'') :
    Skolemizes D σ [.quant .exist vars body] [m] s s'' := by
  have hbody : (∀ t ∈ [Term.quant .exist vars body], t.Monotone) → ∀ t ∈ [body], t.Monotone := by
    simpa using Term.Monotone.body
  refine ⟨henters.grows.trans h.grows, h.clauses.trans henters.clauses, h.isMatrix,
    fun hmono I v => ?_, fun hmono I => ?_⟩
  · obtain ⟨v', hv', hs⟩ := h.sound (hbody hmono) I v
    refine ⟨v', fun y hy => hv' y (Nat.lt_of_lt_of_le hy henters.grows.vars),
      .cons (fun hm => ?_) .nil⟩
    rw [holds_exist]
    exact ⟨_, henters.read_other I v, (List.forall₂_cons.1 hs).1 hm⟩
  · -- a witness for each tuple of values of the universal variables, where there is one
    let IsWitness (ds : List D) (w : Var → D) : Prop :=
      (∃ v, σ.universals.map (I.denote v) = ds ∧ ∀ x ∉ vars, w x = σ.read I v x) ∧ I.Holds body w
    have hchoice : ∀ ds, ∃ w, (∃ w', IsWitness ds w') → IsWitness ds w := by
      intro ds
      by_cases hw' : ∃ w', IsWitness ds w'
      · obtain ⟨w', hw'⟩ := hw'
        exact ⟨w', fun _ => hw'⟩
      · exact ⟨fun _ => I.value (.bool true), fun h => absurd h hw'⟩
    obtain ⟨g, hg⟩ := Classical.axiomOfChoice hchoice
    obtain ⟨J, hIJ, hJ⟩ := hvalues I g
    obtain ⟨K, hJK, hc⟩ := h.complete (hbody hmono) J
    refine ⟨K, hIJ.trans_minted hJK henters.grows.funs h.grows.funs, fun v => ?_⟩
    refine .cons (fun hex => (List.forall₂_cons.1 (hc v)).1 ?_) .nil
    obtain ⟨w, hwv, hbw⟩ := (holds_exist I _ vars body).1 hex
    have hsame : σ.universals.map (J.denote v) = σ.universals.map (I.denote v) :=
      List.map_congr_left fun a ha => by
        obtain ⟨y, rfl⟩ := Scope.isVar_of_mem_universals ha
        rw [denote_var, denote_var]
    obtain ⟨⟨v', hv', hother⟩, hgw⟩ := hg _ ⟨w, ⟨v, rfl, hwv⟩, hbw⟩
    refine (hIJ.holds_iff hw.not_minted fun x hx => ?_).2 hgw
    by_cases hxv : x ∈ vars
    · rw [hJ v x hxv, hsame]
    · -- outside the bound variables, only the values of the universal ones matter
      rw [henters.read_other J v x hxv, hother x hxv]
      refine hσ.read_congr hIJ (fun y hy => ?_) (hfree x ?_)
      · have hy' := List.map_inj_left.1 hv' (.var y) hy
        rwa [denote_var, denote_var, eq_comm] at hy'
      · rw [Term.free_quant, List.mem_filter]
        exact ⟨hx, decide_eq_true hxv⟩

end Skolemizes

end Conversion

namespace ConvertM

open Conversion

variable {D : Type u} {s : Conversion} {σ : Scope} {t : Term}

/-- A formula without quantifiers only changes its variables. -/
theorem matrix_eq_pure (σ : Scope) (h : t.QuantifierFree) :
    matrix t σ = pure (t.subst σ.place) := by
  have hall : ∀ ts : List Term, (∀ t ∈ ts, matrix t σ = pure (t.subst σ.place)) →
      matrixAll ts σ = pure (ts.map (Term.subst σ.place)) := by
    intro ts h
    induction ts with
    | nil => rfl
    | cons t ts ih =>
      rw [List.forall_mem_cons] at h
      rw [matrixAll, h.1, ih h.2]
      simp
  induction t using Term.induct with
  | var x => rw [matrix]; rfl
  | call f args ih =>
    rw [matrix_call, hall args fun a ha => ih a ha (Term.quantifierFree_call.1 h a ha)]
    simp
  | node op args ih =>
    rw [matrix_node, hall args fun a ha => ih a ha (Term.quantifierFree_node.1 h a ha)]
    simp
  | quant q vars body ih => exact absurd h Term.not_quantifierFree_quant
  | _ => rw [matrix]; all_goals simp [Term.subst]

/-- Where no variables are bound, it stays as it is. -/
theorem matrix_empty_eq_pure (h : t.QuantifierFree) : matrix t .empty = pure t := by
  have hplace : Scope.place .empty = Term.var := rfl
  rw [matrix_eq_pure _ h, hplace, Term.subst_id]

/-- Taking the quantifiers of several formulas away. -/
theorem ensures_matrixAll {ts : List Term} (hw : ∀ t ∈ ts, t.Within s.vocabulary)
    (hσ : σ.Fits s.vocabulary) (hfree : ∀ t ∈ ts, ∀ x ∈ t.free, (σ.get? x).isSome = true)
    (h : ∀ t ∈ ts, ∀ s : Conversion, t.Within s.vocabulary → σ.Fits s.vocabulary →
      Ensures (matrix t σ) s fun m s' => Skolemizes D σ [t] [m] s s') :
    Ensures (matrixAll ts σ) s fun ms s' => Skolemizes D σ ts ms s s' := by
  induction ts generalizing s with
  | nil => exact .pure (.nil s)
  | cons t ts ih =>
    rw [List.forall_mem_cons] at hw hfree h
    rw [matrixAll]
    refine (h.1 s hw.1 hσ).bind fun m s₁ hd => ?_
    refine (ih (fun a ha => (hw.2 a ha).mono hd.grows.funs) (hσ.mono hd.grows.vars hd.grows.funs)
      hfree.2 h.2).bind fun ms s₂ htl => ?_
    exact .pure (hd.cons hσ hw.2 hfree.2 htl)

/-- Taking the quantifiers away below a connective, in the scope that it stands in. -/
theorem ensures_matrixAll_args {op : Op} {args : List Term}
    (h : ∀ a ∈ args, ∀ {s : Conversion} {σ : Scope}, a.isFormula = true → a.Within s.vocabulary →
      σ.Fits s.vocabulary → (∀ x ∈ a.free, (σ.get? x).isSome = true) →
      Ensures (matrix a σ) s fun m s' => Skolemizes D σ [a] [m] s s')
    (hf : ∀ a ∈ args, a.isFormula = true) (hw : (Term.node op args).Within s.vocabulary)
    (hσ : σ.Fits s.vocabulary) (hfree : ∀ x ∈ (Term.node op args).free, (σ.get? x).isSome = true) :
    Ensures (matrixAll args σ) s fun ms s' => Skolemizes D σ args ms s s' := by
  have hfree' : ∀ a ∈ args, ∀ x ∈ a.free, (σ.get? x).isSome = true := by
    intro a ha x hx
    refine hfree x ?_
    rw [Term.free_node, List.mem_flatMap]
    exact ⟨a, ha, hx⟩
  exact ensures_matrixAll (Term.within_node.1 hw) hσ hfree' fun a ha s hw hσ =>
    h a ha (hf a ha) hw hσ (hfree' a ha)

/-- **Taking the quantifiers away leaves a matrix**, whichever way the quantifiers stand; and where
they stand positively, it says what the formula says. -/
theorem ensures_matrix (hn : t.Normal) (hf : t.isFormula = true) (hw : t.Within s.vocabulary)
    (hσ : σ.Fits s.vocabulary) (hfree : ∀ x ∈ t.free, (σ.get? x).isSome = true) :
    Ensures (matrix t σ) s fun m s' => Skolemizes D σ [t] [m] s s' := by
  -- formulas without quantifiers keep their shape, and only change their variables
  have hplain : ∀ {t : Term} {s : Conversion} {σ : Scope}, t.Normal → t.QuantifierFree →
      t.isFormula = true → t.Within s.vocabulary → σ.Fits s.vocabulary →
      (∀ x ∈ t.free, (σ.get? x).isSome = true) →
      Ensures (matrix t σ) s fun m s' => Skolemizes D σ [t] [m] s s' := by
    intro t s σ hn hq hf hw hσ hfree
    rw [matrix_eq_pure σ hq]
    exact .pure (.plain hσ hn hq hf hw hfree)
  induction hn generalizing s σ with
  | atom ha => exact hplain (.atom ha) (Term.quantifierFree_atom ha hf) hf hw hσ hfree
  | @negated a ha =>
    have hf' := ((Term.isFormula_connective rfl).1 hf).2 a (by simp)
    have hq : (Term.node .not [a]).QuantifierFree :=
      Term.quantifierFree_node.2 (by simpa using Term.quantifierFree_atom ha hf')
    exact hplain (.negated ha) hq hf hw hσ hfree
  | @conj args _ ih =>
    rw [matrix_node]
    refine (ensures_matrixAll_args ih (Term.isFormula_conj.1 hf) hw hσ hfree).bind fun ms s' h => ?_
    exact .pure (h.junction (.inl rfl))
  | @disj args _ ih =>
    rw [matrix_node]
    refine (ensures_matrixAll_args ih (Term.isFormula_disj.1 hf) hw hσ hfree).bind fun ms s' h => ?_
    exact .pure (h.junction (.inr rfl))
  | @iff a b hna hnb iha ihb =>
    by_cases hq : (Term.node .iff [a, b]).QuantifierFree
    · exact hplain (.iff hna hnb) hq hf hw hσ hfree
    · have hargs := ((Term.isFormula_connective rfl).1 hf).2
      have hws := Term.within_node.1 hw
      have hfrees : ∀ c ∈ [a, b], ∀ x ∈ c.free, (σ.get? x).isSome = true := fun c hc x hx =>
        hfree x (by rw [Term.free_node, List.mem_flatMap]; exact ⟨c, hc, hx⟩)
      rw [matrix_node, matrixAll, matrixAll, matrixAll]
      simp only [bind_assoc, pure_bind]
      refine (iha (hargs a (by simp)) (hws a (by simp)) hσ (hfrees a (by simp))).bind
        fun m s₁ hm => ?_
      refine (ihb (hargs b (by simp)) ((hws b (by simp)).mono hm.grows.funs)
        (hσ.mono hm.grows.vars hm.grows.funs) (hfrees b (by simp))).bind fun n s₂ hn => ?_
      exact .pure (.iff hq (hm.cons hσ (by simpa using hws b (by simp))
        (by simpa using hfrees b (by simp)) hn))
  | @quant q vars body _ ih =>
    have hf' := Term.isFormula_quant.1 hf
    have hw' : body.Within s.vocabulary := by
      rwa [Term.Within, Term.funs_quant] at hw
    cases q with
    | all =>
      rw [matrix]
      refine (ensures_bindFresh D vars hσ).bind ?_
      rintro σ' s₁ ⟨henters, hvalues⟩
      refine (ih hf' (hw'.mono henters.grows.funs) henters.fits
        (henters.bound_of_mem_free hfree)).mono fun m s₂ h => ?_
      exact .all hσ henters hfree hvalues h
    | exist =>
      rw [matrix]
      refine (ensures_bindSkolem D vars rfl hσ).bind ?_
      rintro σ' s₁ ⟨henters, hvalues⟩
      refine (ih hf' (hw'.mono henters.grows.funs) henters.fits
        (henters.bound_of_mem_free hfree)).mono fun m s₂ h => ?_
      exact .exist hσ henters hw' hfree hvalues h

end ConvertM

end ClauseForm
