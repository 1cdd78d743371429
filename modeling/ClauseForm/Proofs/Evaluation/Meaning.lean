import ClauseForm.Proofs.Bindings.Removal
import ClauseForm.Proofs.Evaluation.Folding
import ClauseForm.Proofs.Semantics.Capture

/-!
# Evaluating a formula

Whatever is bound, the evaluation of a term comes to an end without a fault, if the argument counts
are kept; and what is a matter of the parts, such as being well-formed, is kept as well
(`ClauseForm.Term.exists_evaluate_partwise`). If variables are bound to objects, objects have their
variables replaced (`ClauseForm.Term.evaluate_of_intoObjects`).

Without bindings, a formula is evaluated to one that says the same in every standard
interpretation and mentions nothing new (`ClauseForm.Term.exists_evaluate`).
-/

universe u

namespace ClauseForm

namespace Term

open Interpretation

/-! ### Under any bindings -/

/-- Terms that are evaluated without a fault one by one are so together. -/
theorem exists_evaluateAll {R : Term → Term → Prop} {σ : Substitution} {ts : List Term}
    (h : ∀ t ∈ ts, ∃ t', t.evaluate σ = .ok t' ∧ R t t') :
    ∃ ts', evaluateAll ts σ = .ok ts' ∧ List.Forall₂ R ts ts' := by
  induction ts with
  | nil => exact ⟨[], rfl, .nil⟩
  | cons t ts ih =>
    rw [List.forall_mem_cons] at h
    obtain ⟨⟨t', ht, hd⟩, hts⟩ := h
    obtain ⟨ts', hts, htl⟩ := ih hts
    refine ⟨t' :: ts', ?_, .cons hd htl⟩
    rw [evaluateAll, ht, hts]
    rfl

/-- Below a quantifier, everything is bound as above it, but for what the quantifier binds. -/
theorem get?_foldl_remove (vars : List Var) (σ : Substitution) (key : Term) :
    (vars.foldl (fun τ v => τ.remove (.var v)) σ).get? key =
      if key ∈ vars.map .var then none else σ.get? key := by
  induction vars generalizing σ with
  | nil => simp
  | cons v vars ih =>
    rw [List.foldl_cons, ih, Bindings.get?_remove, List.map_cons]
    by_cases hkey : key = .var v
    · simp [hkey]
    · simp [hkey]

/-- What is bound below a quantifier was bound above it. -/
theorem get?_of_get?_foldl_remove (vars : List Var) {σ : Substitution} {key u : Term}
    (h : (vars.foldl (fun τ v => τ.remove (.var v)) σ).get? key = some u) :
    σ.get? key = some u := by
  rw [get?_foldl_remove] at h
  split at h
  · cases h
  · exact h

section Equations

variable {σ : Substitution} {args args' : List Term}

/-- What is bound is replaced by its binding. -/
theorem evaluate_of_get? {t u : Term} (h : σ.get? t = some u) : t.evaluate σ = .ok u := by
  unfold evaluate
  rw [h]

/-- The arguments of a call are evaluated. -/
theorem evaluate_call {f : FunSym} (h : σ.get? (.call f args) = none)
    (hargs : evaluateAll args σ = .ok args') :
    (Term.call f args).evaluate σ = .ok (.call f args') := by
  rw [evaluate, h]
  simp only [hargs]
  rfl

/-- The arguments of an operator are evaluated, and then the operator is folded. -/
theorem evaluate_node {op : Op} (h : σ.get? (.node op args) = none)
    (hargs : evaluateAll args σ = .ok args') : (Term.node op args).evaluate σ = fold op args' := by
  rw [evaluate, h]
  simp only [hargs]
  rfl

/-- The body of a quantifier is evaluated, with what it binds left alone. -/
theorem evaluate_quant {q : Quantifier} {vars : List Var} {body body' : Term}
    (h : σ.get? (.quant q vars body) = none)
    (hbody : body.evaluate (vars.foldl (fun τ v => τ.remove (.var v)) σ) = .ok body') :
    (Term.quant q vars body).evaluate σ = .ok (.quant q vars body') := by
  rw [evaluate, h]
  simp only [hbody]
  rfl

end Equations

/-- **A term is evaluated without a fault**, and what is a matter of the parts of terms holds of the
result, if it does of the term and of what is bound. -/
theorem exists_evaluate_partwise {P : Term → Prop} {Q : FunSym → Prop} {R : List Var → Prop}
    (hP : Partwise P Q R) {t : Term} (ht : P t) {σ : Substitution}
    (hσ : ∀ key u, σ.get? key = some u → P u) : ∃ t', t.evaluate σ = .ok t' ∧ P t' := by
  have hunbound : ∀ {t : Term} {σ : Substitution}, (∀ key u, σ.get? key = some u → P u) →
      (σ.get? t = none → ∃ t', t.evaluate σ = .ok t' ∧ P t') →
        ∃ t', t.evaluate σ = .ok t' ∧ P t' := by
    intro t σ hσ h
    cases hbound : σ.get? t with
    | some u => exact ⟨u, evaluate_of_get? hbound, hσ t u hbound⟩
    | none => exact h hbound
  have hall : ∀ {args : List Term} {σ : Substitution},
      (∀ a ∈ args, ∃ a', a.evaluate σ = .ok a' ∧ P a') →
        ∃ args', evaluateAll args σ = .ok args' ∧ args.length = args'.length ∧
          ∀ a' ∈ args', P a' := by
    intro args σ h
    obtain ⟨args', hargs, hkept⟩ := exists_evaluateAll (R := fun _ a' => P a') h
    exact ⟨args', hargs, hkept.length_eq, forall_mem_right_of_forall₂ hkept id⟩
  induction t using Term.induct generalizing σ with
  | call f args ih =>
    refine hunbound hσ fun hnone => ?_
    obtain ⟨hf, hargs⟩ := (hP.call f args).1 ht
    obtain ⟨args', hrun, -, hargs'⟩ := hall fun a ha => ih a ha (hargs a ha) hσ
    exact ⟨.call f args', evaluate_call hnone hrun, (hP.call f args').2 ⟨hf, hargs'⟩⟩
  | node op args ih =>
    refine hunbound hσ fun hnone => ?_
    obtain ⟨htakes, hargs⟩ := (hP.node op args).1 ht
    obtain ⟨args', hrun, hlength, hargs'⟩ := hall fun a ha => ih a ha (hargs a ha) hσ
    have hnode : P (.node op args') := (hP.node op args').2 ⟨hlength ▸ htakes, hargs'⟩
    obtain ⟨t', ht', -⟩ := exists_fold.{0} (hP.keepsArities hnode)
    exact ⟨t', (evaluate_node hnone hrun).trans ht', (folded ht').partwise hP hargs'⟩
  | quant q vars body ih =>
    refine hunbound hσ fun hnone => ?_
    obtain ⟨hvars, hbody⟩ := (hP.quant q vars body).1 ht
    obtain ⟨body', hrun, hbody'⟩ := ih hbody fun key u h =>
      hσ key u (get?_of_get?_foldl_remove vars h)
    exact ⟨.quant q vars body', evaluate_quant hnone hrun,
      (hP.quant q vars body').2 ⟨hvars, hbody'⟩⟩
  | _ =>
    refine hunbound hσ fun hnone => ⟨_, ?_, ht⟩
    unfold evaluate
    rw [hnone]

/-- A well-formed term is evaluated without a fault to a well-formed one, if what is bound is
well-formed. -/
theorem exists_evaluate_wellFormed {t : Term} (ht : t.WellFormed) {σ : Substitution}
    (hσ : ∀ key u, σ.get? key = some u → u.WellFormed) :
    ∃ t', t.evaluate σ = .ok t' ∧ t'.WellFormed :=
  exists_evaluate_partwise partwise_wellFormed ht hσ

end Term

/-! ### Under bindings of variables to objects -/

namespace Substitution

open Term

variable {σ : Substitution}

/-- What a variable is bound to, or the variable itself. -/
def reading (σ : Substitution) (x : Var) : Term :=
  (σ.get? (.var x)).getD (.var x)

/-- All that is bound are variables, and they are bound to objects. -/
def IntoObjects (σ : Substitution) : Prop :=
  ∀ key u, σ.get? key = some u → key.isVar = true ∧ u.isObject = true

theorem reading_of_get? {x : Var} {u : Term} (h : σ.get? (.var x) = some u) : σ.reading x = u := by
  rw [reading, h]
  rfl

theorem reading_of_get?_eq_none {x : Var} (h : σ.get? (.var x) = none) :
    σ.reading x = .var x := by
  rw [reading, h]
  rfl

/-- Below a quantifier, what it binds is left alone. -/
theorem reading_foldl_remove (vars : List Var) (σ : Substitution) :
    reading (vars.foldl (fun τ v => τ.remove (.var v)) σ) = sparing vars σ.reading := by
  funext x
  rw [reading, get?_foldl_remove, sparing]
  by_cases hx : x ∈ vars
  · simp [hx]
  · simp [hx, reading]

/-- Nothing is bound to begin with. -/
theorem intoObjects_empty : IntoObjects .empty := by
  simp [IntoObjects]

namespace IntoObjects

/-- A variable may be bound to an object. -/
theorem add (h : σ.IntoObjects) {x : Var} {u : Term} (hu : u.isObject = true) :
    IntoObjects (σ.add (.var x) u) := by
  intro key t ht
  by_cases hkey : key = .var x
  · rw [hkey, Bindings.get?_add_self, Option.some.injEq] at ht
    exact ⟨hkey ▸ rfl, ht ▸ hu⟩
  · rw [Bindings.get?_add_of_ne hkey] at ht
    exact h key t ht

theorem foldl_remove (h : σ.IntoObjects) (vars : List Var) :
    IntoObjects (vars.foldl (fun τ v => τ.remove (.var v)) σ) := fun key u hu =>
  h key u (get?_of_get?_foldl_remove vars hu)

theorem get?_eq_none (h : σ.IntoObjects) {t : Term} (ht : t.isVar = false) : σ.get? t = none := by
  cases hbound : σ.get? t with
  | none => rfl
  | some u => simp [(h t u hbound).1] at ht

theorem isObject_reading (h : σ.IntoObjects) (x : Var) : (σ.reading x).isObject = true := by
  cases hbound : σ.get? (.var x) with
  | none => simp [reading, hbound, isObject]
  | some u => exact reading_of_get? hbound ▸ (h _ u hbound).2

end IntoObjects

end Substitution

namespace Term

/-- Terms of which each comes to something known. -/
theorem evaluateAll_eq_map {σ : Substitution} {f : Term → Term} {ts : List Term}
    (h : ∀ t ∈ ts, t.evaluate σ = .ok (f t)) : evaluateAll ts σ = .ok (ts.map f) := by
  induction ts with
  | nil => rfl
  | cons t ts ih =>
    rw [List.forall_mem_cons] at h
    rw [evaluateAll, h.1, ih h.2]
    rfl

/-- Terms that all stay as they are. -/
theorem evaluateAll_eq_self {σ : Substitution} {ts : List Term}
    (h : ∀ t ∈ ts, t.evaluate σ = .ok t) : evaluateAll ts σ = .ok ts :=
  (evaluateAll_eq_map h).trans (by rw [List.map_id'])

/-- Objects have their variables replaced. -/
theorem evaluate_of_intoObjects {σ : Substitution} (hσ : σ.IntoObjects) {t : Term}
    (h : t.isObject = true) : t.evaluate σ = .ok (t.subst σ.reading) := by
  induction t using Term.induct with
  | call f args ih =>
    rw [subst_call]
    exact evaluate_call (hσ.get?_eq_none rfl)
      (evaluateAll_eq_map fun a ha => ih a ha (isObject_call.1 h a ha))
  | node op args ih => simp [isObject] at h
  | quant q vars body ih => simp [isObject] at h
  | var x =>
    cases hbound : σ.get? (.var x) with
    | some u => rw [evaluate_of_get? hbound, subst_var, Substitution.reading_of_get? hbound]
    | none =>
      rw [subst_var, Substitution.reading_of_get?_eq_none hbound]
      unfold evaluate
      rw [hbound]
  | _ =>
    unfold evaluate
    rw [hσ.get?_eq_none rfl]
    rfl

/-! ### Without bindings -/

/-- **A term that keeps the argument counts is evaluated without a fault**, to one that does as
well, and that mentions no other function symbol. -/
theorem exists_evaluate_funs {t : Term} (h : t.KeepsArities) :
    ∃ t', t.evaluate .empty = .ok t' ∧ t'.KeepsArities ∧ ∀ f ∈ t'.funs, f ∈ t.funs := by
  have hP : Partwise (fun u => u.KeepsArities ∧ ∀ f ∈ u.funs, f ∈ t.funs) (· ∈ t.funs)
      (fun _ => True) := by
    refine ⟨fun b => ?_, fun f args => ?_, fun op args => ?_, fun q vars body => ?_⟩
    · simp [KeepsArities, keepsArity, funs, head?]
    · rw [keepsArities_call, funs_call, List.forall_mem_cons, List.forall_mem_flatMap,
        forall₂_and]
      tauto
    · rw [keepsArities_node, funs_node, List.forall_mem_flatMap, forall₂_and, and_assoc]
    · rw [keepsArities_quant, funs_quant, true_and]
  exact exists_evaluate_partwise hP ⟨h, fun _ hf => hf⟩ (by simp)

/-- Nothing is removed where nothing is bound. -/
theorem foldl_remove_empty (vars : List Var) :
    vars.foldl (fun (τ : Substitution) v => τ.remove (.var v)) .empty = .empty := by
  induction vars with
  | nil => rfl
  | cons v vars ih => exact ih

/-- Objects stay as they are. -/
theorem evaluate_of_isObject {t : Term} (h : t.isObject = true) : t.evaluate .empty = .ok t := by
  have hid : Substitution.reading .empty = .var := rfl
  rw [evaluate_of_intoObjects Substitution.intoObjects_empty h, hid, subst_id]

/-- What the evaluation of a formula keeps of it. -/
structure Evaluated (t t' : Term) : Prop where
  isFormula : t'.isFormula = true
  funs : ∀ f ∈ t'.funs, f ∈ t.funs
  quantifierFree : t.QuantifierFree → t'.QuantifierFree
  openSides : t.OpenSides → t'.OpenSides
  holds : ∀ {D : Type u} {I : Interpretation D}, I.Standard →
    ∀ v, I.Holds t' v ↔ I.Holds t v

/-- A formula that stays as it is. -/
theorem Evaluated.refl {t : Term} (h : t.isFormula = true) : Evaluated.{u} t t :=
  ⟨h, fun _ hf => hf, id, id, fun _ _ => Iff.rfl⟩

theorem Evaluated.restates {t t' : Term} (h : Evaluated.{u} t t') : Restates.{u} t t' :=
  ⟨h.isFormula, h.holds⟩

/-- Folding a connective over evaluated arguments evaluates the whole. -/
theorem Evaluated.connective {op : Op} {args args' : List Term} {t : Term}
    (hop : op.isPredicate = false) (hf : (Term.node op args).isFormula = true)
    (h : List.Forall₂ Evaluated.{u} args args') (ht : fold op args' = .ok t) :
    Evaluated.{u} (.node op args) t := by
  have hmem := exists_of_mem_forall₂ h
  have hrestates : Restates.{u} (.node op args) (.node op args') :=
    .connective hop ((isFormula_connective hop).1 hf).1 (h.imp fun _ _ he => he.restates)
  have hwhole := hrestates.trans (.of_fold hrestates.isFormula ht)
  have hfolded := folded ht
  -- what the folded formula mentions comes from an evaluated argument, and so from an argument
  refine ⟨hwhole.isFormula, fun f hfun => ?_, fun hq => ?_, fun ho => ?_, hwhole.holds⟩
  · obtain ⟨a', ha', hfun⟩ := hfolded.mem_funs hfun
    obtain ⟨a, ha, he⟩ := hmem a' ha'
    rw [funs_node, List.mem_flatMap]
    exact ⟨a, ha, he.funs f hfun⟩
  · refine hfolded.quantifierFree fun a' ha' => ?_
    obtain ⟨a, ha, he⟩ := hmem a' ha'
    exact he.quantifierFree (quantifierFree_node.1 hq a ha)
  · refine hfolded.openSides (fun a' ha' => ?_) fun hsides a' ha' => ?_
    · obtain ⟨a, ha, he⟩ := hmem a' ha'
      exact he.openSides (ho.of_mem_args ha)
    · obtain ⟨a, ha, he⟩ := hmem a' ha'
      exact he.quantifierFree (ho _ (self_mem_parts _) (by simpa [isOp, op?] using hsides) a ha)

/-- Folding a predicate over objects evaluates the whole. -/
theorem Evaluated.predicate {op : Op} {args : List Term} {t : Term} (hop : op.isPredicate = true)
    (hf : (Term.node op args).isFormula = true) (ht : fold op args = .ok t) :
    Evaluated.{u} (.node op args) t := by
  have hrestates : Restates.{u} (.node op args) t := .of_fold hf ht
  have hfolded := folded ht
  have hq : ∀ a ∈ args, a.QuantifierFree := fun a ha =>
    .of_isObject (((isFormula_predicate hop).1 hf).2 a ha)
  refine ⟨hrestates.isFormula, fun f hfun => ?_, fun _ => hfolded.quantifierFree hq,
    fun ho => hfolded.openSides (fun a ha => ho.of_mem_args ha) fun _ => hq, hrestates.holds⟩
  obtain ⟨a, ha, hfun⟩ := hfolded.mem_funs hfun
  rw [funs_node, List.mem_flatMap]
  exact ⟨a, ha, hfun⟩

/-- A quantifier over an evaluated body. -/
theorem Evaluated.quant {body body' : Term} (q : Quantifier) (vars : List Var)
    (h : Evaluated.{u} body body') : Evaluated.{u} (.quant q vars body) (.quant q vars body') := by
  have hrestates := h.restates.quant q vars
  refine ⟨hrestates.isFormula, ?_, fun hq => absurd hq not_quantifierFree_quant,
    fun ho => openSides_quant.2 (h.openSides (openSides_quant.1 ho)), hrestates.holds⟩
  simpa using h.funs

/-- **A formula is evaluated without a fault**, to one that says the same in every standard
interpretation. -/
theorem exists_evaluate {t : Term} (h : t.isFormula = true) :
    ∃ t', t.evaluate .empty = .ok t' ∧ Evaluated.{u} t t' := by
  induction t using Term.induct with
  | call f args ih => exact ⟨_, evaluate_of_isObject h, .refl h⟩
  | node op args ih =>
    by_cases hop : op.isPredicate = true
    · obtain ⟨t, ht, -⟩ := exists_fold_restates.{u} h
      -- the arguments are objects, which evaluation leaves as they are
      have hargs := evaluateAll_eq_self fun a ha =>
        evaluate_of_isObject (((isFormula_predicate hop).1 h).2 a ha)
      exact ⟨t, (evaluate_node rfl hargs).trans ht, .predicate hop h ht⟩
    · have hop : op.isPredicate = false := by simpa using hop
      obtain ⟨htakes, hformulas⟩ := (isFormula_connective hop).1 h
      obtain ⟨args', hargs, he⟩ := exists_evaluateAll fun a ha => ih a ha (hformulas a ha)
      have hrestates : Restates.{u} (.node op args) (.node op args') :=
        .connective hop htakes (he.imp fun _ _ he => he.restates)
      obtain ⟨t, ht, -⟩ := exists_fold_restates.{u} hrestates.isFormula
      exact ⟨t, (evaluate_node rfl hargs).trans ht, .connective hop h he ht⟩
  | quant q vars body ih =>
    obtain ⟨body', hbody, he⟩ := ih (isFormula_quant.1 h)
    refine ⟨.quant q vars body', evaluate_quant rfl ?_, he.quant q vars⟩
    rw [foldl_remove_empty]
    exact hbody
  | const f => exact ⟨_, rfl, .refl h⟩
  | bool b => exact ⟨_, rfl, .refl h⟩
  | _ => simp [isFormula] at h

end Term

end ClauseForm
