import ClauseForm.Proofs.Conversion.Budget
import ClauseForm.Proofs.Conversion.Scope

/-!
# Taking the quantifiers away from any term

The quantifiers of a term that keeps the argument counts are taken away without a
fault, wherever they stand, and without gathering a clause
(`ClauseForm.ConvertM.ensures_matrix_cleared`). What is left is of the shape that the term
had (`ClauseForm.Term.Cleared`): atoms stay atoms, normal forms stay normal forms, and
nothing gets bulkier.

Unlike in `ClauseForm.ConvertM.ensures_matrix`, connectives and quantifiers may stand
inside atoms here, and nothing is said about the meaning. All that is asked of the
scope is that what it holds are objects (`ClauseForm.Scope.Objective`).
-/

namespace ClauseForm

namespace Term

/-! ### What is kept of a term -/

/-- What is left of a term has no quantifiers, and the shape that the term had. -/
structure Cleared (t m : Term) : Prop where
  quantifierFree : m.QuantifierFree
  keepsArities : m.KeepsArities
  isAtom : t.isAtom = true → m.isAtom = true
  isObject : t.isObject = true → m.isObject = true
  isFormula : t.isFormula = true → m.isFormula = true
  normal : t.Normal → m.Normal
  bulk : m.bulk ≤ t.bulk

/-- Objects are atoms. -/
theorem isAtom_of_isObject {t : Term} (h : t.isObject = true) : t.isAtom = true := by
  cases t <;> first | rfl | simp [isObject] at h

namespace Cleared

variable {t m : Term} {args ms : List Term}

/-- An object in the place of another one. -/
theorem object (ht : t.isObject = true) (hm : m.isObject = true)
    (hf : t.isFormula = true → m.isFormula = true) : Cleared t m := by
  have hatom := isAtom_of_isObject hm
  refine ⟨.of_isObject hm, .of_isObject hm, fun _ => hatom, fun _ => hm, hf,
    fun _ => .atom hatom, ?_⟩
  exact Nat.le_of_eq (by rw [bulk_of_isAtom hatom, bulk_of_isAtom (isAtom_of_isObject ht)])

theorem call (f : FunSym) (h : List.Forall₂ Cleared args ms) :
    Cleared (.call f args) (.call f ms) := by
  have hobject := forall_mem_of_forall₂ h fun hc => hc.isObject
  refine ⟨quantifierFree_call.2 ?_, keepsArities_call.2 ?_, fun _ => rfl, ?_, ?_,
    fun _ => .atom rfl, Nat.le_refl 1⟩
  · exact forall_mem_right_of_forall₂ h fun hc => hc.quantifierFree
  · exact forall_mem_right_of_forall₂ h fun hc => hc.keepsArities
  · simpa only [isObject_call] using hobject
  · simpa only [isFormula_call] using hobject

/-- A normal form stays one if the operator on top stays and its arguments are cleared. -/
theorem normal_node {op : Op} (h : List.Forall₂ Cleared args ms)
    (hn : (Term.node op args).Normal) : (Term.node op ms).Normal := by
  have hnormal := forall_mem_of_forall₂ h fun hc => hc.normal
  rcases hn with ha | ha | hargs | hargs | ⟨hs, ht⟩
  · exact .atom ha
  · obtain ⟨m, _, hc, hnil, rfl⟩ := List.forall₂_cons_left_iff.1 h
    obtain rfl := List.forall₂_nil_left_iff.1 hnil
    exact .negated (hc.isAtom ha)
  · exact .conj (hnormal hargs)
  · exact .disj (hnormal hargs)
  · obtain ⟨m, _, hc, hrest, rfl⟩ := List.forall₂_cons_left_iff.1 h
    obtain ⟨n, _, hd, hnil, rfl⟩ := List.forall₂_cons_left_iff.1 hrest
    obtain rfl := List.forall₂_nil_left_iff.1 hnil
    exact .iff (hc.normal hs) (hd.normal ht)

/-- A formula stays one if the operator on top stays and its arguments are cleared. -/
theorem isFormula_node {op : Op} (h : List.Forall₂ Cleared args ms)
    (hf : (Term.node op args).isFormula = true) : (Term.node op ms).isFormula = true := by
  by_cases hop : op.isPredicate = true
  · rw [isFormula_predicate hop] at hf ⊢
    exact ⟨h.length_eq ▸ hf.1, forall_mem_of_forall₂ h (fun hc => hc.isObject) hf.2⟩
  · rw [isFormula_connective (by simpa using hop)] at hf ⊢
    exact ⟨h.length_eq ▸ hf.1, forall_mem_of_forall₂ h (fun hc => hc.isFormula) hf.2⟩

/-- An operator gets no bulkier if its arguments are cleared. -/
theorem bulk_node_le (op : Op) (h : List.Forall₂ Cleared args ms) :
    (Term.node op ms).bulk ≤ (Term.node op args).bulk := by
  by_cases hop : op.isJoint = true
  · rw [bulk_joint hop, bulk_joint hop]
    exact Nat.add_le_add_left (total_le_of_forall₂ (h.imp fun _ _ hc => hc.bulk).flip) 1
  · have hop : op.isJoint = false := by simpa using hop
    exact Nat.le_of_eq (by rw [bulk_node_of_not_isJoint hop, bulk_node_of_not_isJoint hop])

theorem node {op : Op} (htakes : op.takes args.length = true) (h : List.Forall₂ Cleared args ms) :
    Cleared (.node op args) (.node op ms) := by
  refine ⟨quantifierFree_node.2 ?_, keepsArities_node.2 ⟨h.length_eq ▸ htakes, ?_⟩, id, ?_,
    isFormula_node h, normal_node h, bulk_node_le op h⟩
  · exact forall_mem_right_of_forall₂ h fun hc => hc.quantifierFree
  · exact forall_mem_right_of_forall₂ h fun hc => hc.keepsArities
  · simp [Term.isObject]

/-- Of a quantifier, the body is left. -/
theorem quant {body : Term} (q : Quantifier) (vars : List Var) (h : Cleared body m) :
    Cleared (.quant q vars body) m := by
  refine ⟨h.quantifierFree, h.keepsArities, ?_, ?_, ?_, ?_, ?_⟩
  · simp [Term.isAtom]
  · simp [Term.isObject]
  · exact fun hf => h.isFormula (isFormula_quant.1 hf)
  · rintro (ha | _ | _ | _ | _ | hbody)
    · simp [Term.isAtom] at ha
    · exact h.normal hbody
  · rw [Term.bulk]
    exact h.bulk

end Cleared

end Term

namespace Scope

/-! ### Scopes of objects -/

/-- The scope binds variables to objects. -/
def Objective (σ : Scope) : Prop :=
  ∀ {x t}, σ.get? x = some t → t.isObject = true

theorem objective_empty : Objective .empty := by
  intro x t h
  simp at h

theorem Objective.add {σ : Scope} (h : σ.Objective) (x : Var) {t : Term}
    (ht : t.isObject = true) : Objective (σ.add x t) := by
  intro y u hy
  by_cases hyx : y = x
  · subst hyx
    rw [Bindings.get?_add_self] at hy
    exact Option.some.inj hy ▸ ht
  · rw [Bindings.get?_add_of_ne hyx] at hy
    exact h hy

end Scope

namespace ConvertM

open Conversion Scope Term

variable {counted : Bool} {s : Conversion} {σ : Scope} {t : Term}

theorem matrixAll_eq_mapM (ts : List Term) (σ : Scope) :
    matrixAll ts σ = ts.mapM (matrix · σ) := by
  induction ts with
  | nil => rfl
  | cons t ts ih => rw [matrixAll, ih, List.mapM_cons]

/-! ### Entering a quantifier -/

theorem ensures_bindFresh_objective (counted : Bool) (vars : List Var) (hσ : σ.Objective) :
    Ensures (σ.bindFresh vars) s fun σ' s' => σ'.Objective ∧ Spends counted 0 0 s s' := by
  induction vars generalizing σ s with
  | nil => exact .pure ⟨hσ, .refl (Nat.le_refl 0) s⟩
  | cons x vars ih =>
    have hrun : Ensures (freshLike x) s fun _ s' => Spends counted 0 0 s s' :=
      ⟨_, _, rfl, .of_eq rfl rfl (Nat.le_refl 0)⟩
    rw [Scope.bindFresh]
    refine hrun.bind fun y s₁ hfirst => ?_
    refine (ih (hσ.add x rfl)).mono ?_
    rintro σ' s' ⟨hσ', hrest⟩
    exact ⟨hσ', hfirst.trans hrest (by omega)⟩

theorem ensures_bindSkolem_objective (counted : Bool) (vars : List Var) {args : List Term}
    (hargs : ∀ a ∈ args, a.isObject = true) (hσ : σ.Objective) :
    Ensures (σ.bindSkolem args vars) s fun σ' s' => σ'.Objective ∧ Spends counted 0 0 s s' := by
  induction vars generalizing σ s with
  | nil => exact .pure ⟨hσ, .refl (Nat.le_refl 0) s⟩
  | cons x vars ih =>
    rw [Scope.bindSkolem]
    refine (ensures_newSkolem s).bind fun f s₁ hf => ?_
    have hfirst : Spends counted 0 0 s s₁ := .of_eq hf.grows.journal hf.clauses (Nat.le_refl 0)
    refine (ih (hσ.add x ((f.isObject_appliedTo args).2 hargs))).mono ?_
    rintro σ' s' ⟨hσ', hrest⟩
    exact ⟨hσ', hfirst.trans hrest (by omega)⟩

/-- **Quantifiers are taken away wherever they stand**, and no clause is gathered. -/
theorem ensures_matrix_cleared (counted : Bool) (hk : t.KeepsArities) (hσ : σ.Objective)
    (hs : s.journal = none) :
    Ensures (matrix t σ) s fun m s' => Cleared t m ∧ Spends counted 0 0 s s' := by
  have hsame : ∀ {t : Term} {s : Conversion}, t.isObject = true →
      Ensures (pure t : ConvertM Term) s fun m s' => Cleared t m ∧ Spends counted 0 0 s s' :=
    fun ht => .pure ⟨.object ht ht id, .refl (Nat.le_refl 0) _⟩
  induction t using Term.induct generalizing σ s with
  | var v =>
    have hplace : ((σ.get? v).getD (.var v)).isObject = true := by
      cases hv : σ.get? v with
      | none => rfl
      | some u => exact hσ hv
    rw [matrix]
    exact .pure ⟨.object rfl hplace (by simp [Term.isFormula]), .refl (Nat.le_refl 0) s⟩
  | call f args ih =>
    rw [matrix_call, matrixAll_eq_mapM]
    refine (Ensures.mapM_spends (b := fun _ => 0) (r := fun _ => 0) hs fun a ha s hs =>
      ih a ha (keepsArities_call.1 hk a ha) hσ hs).bind ?_
    rintro ms s' ⟨hc, hspends⟩
    exact .pure ⟨.call f hc, hspends.mono (by simp)⟩
  | node op args ih =>
    obtain ⟨htakes, hargs⟩ := keepsArities_node.1 hk
    rw [matrix_node, matrixAll_eq_mapM]
    refine (Ensures.mapM_spends (b := fun _ => 0) (r := fun _ => 0) hs fun a ha s hs =>
      ih a ha (hargs a ha) hσ hs).bind ?_
    rintro ms s' ⟨hc, hspends⟩
    exact .pure ⟨.node htakes hc, hspends.mono (by simp)⟩
  | quant q vars body ih =>
    have hk' := keepsArities_quant.1 hk
    have hbody : ∀ {σ' : Scope} {s₁ : Conversion}, σ'.Objective → Spends counted 0 0 s s₁ →
        Ensures (matrix body σ') s₁ fun m s' =>
          Cleared (.quant q vars body) m ∧ Spends counted 0 0 s s' := by
      intro σ' s₁ hσ' hfirst
      refine (ih hk' hσ' (hfirst.quiet hs)).mono ?_
      rintro m s' ⟨hc, hrest⟩
      exact ⟨hc.quant q vars, hfirst.trans hrest (by omega)⟩
    cases q with
    | all =>
      rw [matrix]
      refine (ensures_bindFresh_objective counted vars hσ).bind ?_
      rintro σ' s₁ ⟨hσ', hfirst⟩
      exact hbody hσ' hfirst
    | exist =>
      have hvars : ∀ a ∈ σ.universals, a.isObject = true := by
        intro a ha
        obtain ⟨x, rfl⟩ := isVar_of_mem_universals ha
        rfl
      rw [matrix]
      refine (ensures_bindSkolem_objective counted vars hvars hσ).bind ?_
      rintro σ' s₁ ⟨hσ', hfirst⟩
      exact hbody hσ' hfirst
  | _ => exact hsame rfl

end ConvertM

end ClauseForm
