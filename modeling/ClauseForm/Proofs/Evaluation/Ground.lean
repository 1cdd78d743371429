import ClauseForm.Proofs.Evaluation.Substitution

/-!
# Evaluating ground formulas

A formula is ground under a substitution (`ClauseForm.Term.Ground`) if everything in it
is a truth value or a constant, or a variable bound to one, and if it compares numbers of
one kind only. Evaluation never gets stuck on such a formula: it comes to a truth value,
the one that the formula has when `=` is equality of terms and numbers are ordered by
their exact values, and so in every standard interpretation (`ClauseForm.evaluate_ground`).
-/

universe u

namespace ClauseForm

namespace Term

open Interpretation Substitution

variable {σ : Substitution} {op : Op} {s t c d : Term} {args args' : List Term} {b : Bool}

/-! ### Ground formulas -/

/-- An operand is a constant, or a variable that is bound to it. -/
inductive Reads (σ : Substitution) : Term → Term → Prop
  /-- A constant stands there. -/
  | constant {c : Term} : c.isConstant = true → Reads σ c c
  /-- A variable stands there. -/
  | bound {x : Var} {c : Term} : σ.get? (.var x) = some c → c.isConstant = true →
    Reads σ (.var x) c

/-- A formula that needs nothing but the substitution to be true or not. -/
inductive Ground (σ : Substitution) : Term → Prop
  /-- A truth value. -/
  | bool (b : Bool) : Ground σ (.bool b)
  /-- A variable that is bound to a truth value. -/
  | var {x : Var} {b : Bool} : σ.get? (.var x) = some (.bool b) → Ground σ (.var x)
  /-- A conjunction or disjunction, of any number of formulas. -/
  | junction {op : Op} {args : List Term} : op = .and ∨ op = .or → (∀ a ∈ args, Ground σ a) →
    Ground σ (.node op args)
  /-- A negation. -/
  | not {t : Term} : Ground σ t → Ground σ (.neg t)
  /-- An equation of constants, or its negation. -/
  | equation {op : Op} {s t c d : Term} : op = .equals ∨ op = .notEquals → Reads σ s c →
    Reads σ t d → Ground σ (.node op [s, t])
  /-- A comparison of numbers of one kind. -/
  | comparison {op : Op} {s t c d : Term} {x y : Rat} : op.isComparison = true → Reads σ s c →
    Reads σ t d → OfOneKind c d x y → Ground σ (.node op [s, t])

theorem isObject_of_isConstant (h : c.isConstant = true) : c.isObject = true := by
  cases c with
  | node op args | quant q vars body => simp [isConstant, isNumeric] at h
  | call f args => simp [isConstant, isNumeric] at h
  | _ => rfl

theorem isVar_of_isConstant (h : c.isConstant = true) : c.isVar = false := by
  cases c with
  | var x => simp [isConstant, isNumeric] at h
  | _ => rfl

theorem Reads.isConstant (h : Reads σ s c) : c.isConstant = true := by
  cases h with
  | constant hc => exact hc
  | bound _ hc => exact hc

/-- An operand is evaluated to what it reads as. -/
theorem Reads.evaluate_eq (h : Reads σ s c) (hs : s.isVar = false → σ.get? s = none) :
    s.evaluate σ = .ok c := by
  cases h with
  | constant hc =>
    unfold evaluate
    rw [hs (isVar_of_isConstant hc)]
    cases s with
    | node op args | quant q vars body | call f args => simp [Term.isConstant, isNumeric] at hc
    | _ => rfl
  | bound hx _ => exact evaluate_of_get? hx

/-! ### Folding truth values and constants -/

/-- A conjunction or disjunction of truth values is folded to a truth value. -/
theorem exists_foldJunction_bool (neutral : Bool) (h : ∀ a ∈ args, ∃ b, a = .bool b) :
    ∃ b, foldJunction op neutral args = .bool b := by
  unfold foldJunction
  split
  · exact ⟨_, rfl⟩
  · rename_i hsettled
    have hnil : args.filter (· ≠ .bool neutral) = [] := by
      refine List.eq_nil_iff_forall_not_mem.2 fun a ha => ?_
      obtain ⟨b, rfl⟩ := h a (List.mem_filter.1 ha).1
      exact hsettled (settling_mem_of_mem_filter ha)
    rw [hnil]
    exact ⟨_, rfl⟩

theorem exists_fold_bools (hop : op = .and ∨ op = .or) (h : ∀ a ∈ args, ∃ b, a = .bool b) :
    ∃ b, fold op args = .ok (.bool b) := by
  obtain rfl | rfl := hop
  · exact (exists_foldJunction_bool true h).imp fun _ => congrArg _
  · exact (exists_foldJunction_bool false h).imp fun _ => congrArg _

/-- An equation of constants is folded to a truth value. -/
theorem exists_fold_constants (hop : op = .equals ∨ op = .notEquals) (hc : c.isConstant = true)
    (hd : d.isConstant = true) : ∃ b, fold op [c, d] = .ok (.bool b) := by
  have hfold : ∀ positive, ∃ b, foldEquation op positive c d = .bool b := by
    intro positive
    unfold foldEquation
    rw [hc, hd]
    split
    · exact ⟨_, rfl⟩
    · exact ⟨_, rfl⟩
  obtain rfl | rfl := hop
  · exact (hfold true).imp fun _ => congrArg _
  · exact (hfold false).imp fun _ => congrArg _

/-- A comparison of numbers of one kind is folded to a truth value. -/
theorem exists_fold_numbers (hop : op.isComparison = true) {x y : Rat}
    (h : OfOneKind c d x y) : ∃ b, fold op [c, d] = .ok (.bool b) := by
  obtain ⟨b, hb⟩ := Option.isSome_iff_exists.1 ((isSome_decide?_iff hop).2 ⟨x, y, h⟩)
  have hfold : ∀ reflexive, ∃ b, foldComparison op reflexive c d = .bool b := by
    intro reflexive
    unfold foldComparison
    rw [hb]
    split
    · exact ⟨_, rfl⟩
    · exact ⟨_, rfl⟩
  cases op with
  | less | greater => exact (hfold false).imp fun _ => congrArg _
  | lessEq | greaterEq => exact (hfold true).imp fun _ => congrArg _
  | _ => simp [Op.isComparison] at hop

/-! ### Truth values -/

/-- A valuation that gives the variables that are bound to constants the values of these. -/
def Heeds {D : Type u} (I : Interpretation D) (σ : Substitution) (w : Var → D) : Prop :=
  ∀ x c, σ.get? (.var x) = some c → c.isConstant = true → w x = I.value c

/-- A truth value, the one that a formula has where the bindings are heeded. -/
structure Decides (σ : Substitution) (t t' : Term) : Prop where
  isBool : ∃ b, t' = .bool b
  holds : ∀ {D : Type u} {I : Interpretation D}, I.Standard → ∀ w, Heeds I σ w →
    (I.Holds t' w ↔ I.Holds t w)

theorem Reads.denote_eq {D : Type u} {I : Interpretation D} {w : Var → D} (hw : Heeds I σ w)
    (h : Reads σ s c) : I.denote w c = I.denote w s := by
  cases h with
  | constant hc => rfl
  | bound hx hc => rw [denote_of_isConstant I w hc, denote_var, hw _ _ hx hc]

/-- Folding a connective over decided formulas decides the whole. -/
theorem Decides.connective (hop : op.isPredicate = false) (htakes : op.takes args.length = true)
    (h : List.Forall₂ (Decides.{u} σ) args args') (hfold : fold op args' = .ok (.bool b)) :
    Decides.{u} σ (.node op args) (.bool b) := by
  have hf : (Term.node op args').isFormula = true :=
    (isFormula_connective hop).2 ⟨h.length_eq ▸ htakes, forall_mem_right_of_forall₂ h fun hd => by
      obtain ⟨b, rfl⟩ := hd.isBool
      rfl⟩
  refine ⟨⟨b, rfl⟩, fun {D I} hI w hw => ?_⟩
  have hargs : I.Holds (.node op args') w ↔ I.Holds (.node op args) w :=
    (holds_connective_congr hop (h.imp fun _ _ hd => (hd.holds hI w hw).symm)).symm
  exact ((Restates.of_fold hf hfold).holds hI w).trans hargs

/-- Folding a predicate over the constants that its operands read as decides the whole. -/
theorem Decides.predicate (hop : op.isPredicate = true) (htakes : op.takes 2 = true)
    (hs : Reads σ s c) (ht : Reads σ t d) (hfold : fold op [c, d] = .ok (.bool b)) :
    Decides.{u} σ (.node op [s, t]) (.bool b) := by
  have hf : (Term.node op [c, d]).isFormula = true :=
    (isFormula_predicate hop).2 ⟨htakes, forall_mem_pair.2
      ⟨isObject_of_isConstant hs.isConstant, isObject_of_isConstant ht.isConstant⟩⟩
  refine ⟨⟨b, rfl⟩, fun {D I} hI w hw => ?_⟩
  have hdenote : [c, d].map (I.denote w) = [s, t].map (I.denote w) := by
    simp only [List.map_cons, List.map_nil, hs.denote_eq hw, ht.denote_eq hw]
  rw [(Restates.of_fold hf hfold).holds hI, holds_predicate I w hop, holds_predicate I w hop,
    hdenote]

/-- A ground predicate is evaluated to what its folding over constants comes to. -/
theorem Ground.exists_decides_predicate (hop : op.isPredicate = true) (htakes : op.takes 2 = true)
    (hs : Reads σ s c) (ht : Reads σ t d) (hfold : ∃ b, fold op [c, d] = .ok (.bool b))
    (hσ : ∀ p ∈ (Term.node op [s, t]).parts, p.isVar = false → σ.get? p = none) :
    ∃ t', (Term.node op [s, t]).evaluate σ = .ok t' ∧ Decides.{u} σ (.node op [s, t]) t' := by
  obtain ⟨b, hb⟩ := hfold
  have hargs : evaluateAll [s, t] σ = .ok [c, d] := by
    have hs' := hs.evaluate_eq (hσ s (mem_parts_of_mem_args (by simp [Term.args])))
    have ht' := ht.evaluate_eq (hσ t (mem_parts_of_mem_args (by simp [Term.args])))
    rw [evaluateAll, evaluateAll, evaluateAll, hs', ht']
    rfl
  exact ⟨_, (evaluate_node (hσ _ (self_mem_parts _) rfl) hargs).trans hb,
    .predicate hop htakes hs ht hb⟩

/-- **A ground formula is evaluated to its truth value.** -/
theorem Ground.exists_decides (h : Ground σ t)
    (hσ : ∀ p ∈ t.parts, p.isVar = false → σ.get? p = none) :
    ∃ t', t.evaluate σ = .ok t' ∧ Decides.{u} σ t t' := by
  induction h with
  | bool b =>
    refine ⟨.bool b, ?_, ⟨b, rfl⟩, fun _ _ _ => Iff.rfl⟩
    unfold evaluate
    rw [hσ _ (self_mem_parts _) rfl]
  | @var x b hx =>
    refine ⟨.bool b, evaluate_of_get? hx, ⟨b, rfl⟩, fun {D I} hI w hw => ?_⟩
    have hvar : I.Holds (.var x) w ↔ w x = I.value (.bool true) := .rfl
    rw [hvar, hw x _ hx rfl, holds_bool]
    refine ⟨fun hb => hb ▸ rfl, fun hvalue => ?_⟩
    exact bool.inj (hI.value_injective rfl rfl hvalue)
  | @junction op args hop hargs ih =>
    have hpred : op.isPredicate = false := by obtain rfl | rfl := hop <;> rfl
    have htakes : op.takes args.length = true := by obtain rfl | rfl := hop <;> rfl
    obtain ⟨args', hrun, hall⟩ := exists_evaluateAll fun a ha =>
      ih a ha fun p hp => hσ p (mem_parts_trans hp (mem_parts_of_mem_args ha))
    obtain ⟨b, hb⟩ := exists_fold_bools hop (forall_mem_right_of_forall₂ hall fun hd => hd.isBool)
    exact ⟨_, (evaluate_node (hσ _ (self_mem_parts _) rfl) hrun).trans hb,
      .connective hpred htakes hall hb⟩
  | @not t ht ih =>
    obtain ⟨t', hrun, hd⟩ := ih fun p hp =>
      hσ p (mem_parts_trans hp (mem_parts_of_mem_args List.mem_cons_self))
    obtain ⟨b, rfl⟩ := hd.isBool
    have hargs : evaluateAll [t] σ = .ok [.bool b] := by
      rw [evaluateAll, evaluateAll, hrun]
      rfl
    exact ⟨_, evaluate_node (hσ _ (self_mem_parts _) rfl) hargs,
      .connective rfl rfl (.cons hd .nil) rfl⟩
  | @equation op s t c d hop hs ht =>
    have hpred : op.isPredicate = true := by obtain rfl | rfl := hop <;> rfl
    have htakes : op.takes 2 = true := by obtain rfl | rfl := hop <;> rfl
    exact exists_decides_predicate hpred htakes hs ht
      (exists_fold_constants hop hs.isConstant ht.isConstant) hσ
  | @comparison op s t c d x y hop hs ht hkind =>
    have htakes : op.takes 2 = true := by
      cases op <;> first | rfl | simp [Op.isComparison] at hop
    exact exists_decides_predicate (Op.isPredicate_of_isComparison hop) htakes hs ht
      (exists_fold_numbers hop hkind) hσ

theorem heeds_reading : Heeds literal σ σ.reading := fun _ _ hx _ => reading_of_get? hx

theorem heeds_assign {D : Type u} (I : Interpretation D) (σ : Substitution) (v : Var → D) :
    Heeds I σ (I.assign σ v) := by
  intro x c hx hc
  have hassign : I.assign σ v x = I.denote v (σ.reading x) := congrFun (assign_eq I σ v) x
  rw [hassign, reading_of_get? hx, denote_of_isConstant I v hc]

end Term

open Term Interpretation

/-- **Evaluation settles ground formulas.** If a substitution binds no part of a ground formula
other than variables, the formula is evaluated to a truth value: the one that it has if what is
bound has the value of its binding, `=` is equality of terms and numbers are ordered by their exact
values. It has this truth value in every other standard interpretation as well. -/
theorem evaluate_ground {t : Term} {σ : Substitution} (h : t.Ground σ)
    (hσ : ∀ p ∈ t.parts, p.isVar = false → σ.get? p = none) :
    ∃ b, t.evaluate σ = .ok (.bool b) ∧ (b = true ↔ literal.Holds t σ.reading) ∧
      ∀ {D : Type u} {I : Interpretation D}, I.Standard →
        ∀ v, b = true ↔ I.Holds t (I.assign σ v) := by
  obtain ⟨t', hrun, hliteral⟩ := h.exists_decides.{0} hσ
  obtain ⟨t'', hrun', hall⟩ := h.exists_decides.{u} hσ
  obtain rfl : t' = t'' := Except.ok.inj (hrun.symm.trans hrun')
  obtain ⟨b, rfl⟩ := hliteral.isBool
  exact ⟨b, hrun, hliteral.holds literal_standard _ heeds_reading,
    fun hI v => hall.holds hI _ (heeds_assign _ σ v)⟩

/-- The formula `X & ~("a" = 1/2) & (Y > 2.5 | 1 < Z) & |()`. -/
def groundExample : Term :=
  .conj [.var ⟨0⟩, .neg (.eq (.object "a") (.rational (1 / 2))),
    .disj [.node .greater [.var ⟨1⟩, .real (5 / 2)], .node .less [.integer 1, .var ⟨2⟩]], .disj []]

/-- The substitution that binds `X` to `true`, `Y` to `0.5` and `Z` to `2`. -/
def groundBindings : Substitution :=
  .ofList [(.var ⟨0⟩, .bool true), (.var ⟨1⟩, .real (1 / 2)), (.var ⟨2⟩, .integer 2)]

theorem ground_groundExample : groundExample.Ground groundBindings := by
  have hequation : (Term.eq (.object "a") (.rational (1 / 2))).Ground groundBindings :=
    .equation (.inl rfl) (.constant rfl) (.constant rfl)
  have hgreater : (Term.node .greater [.var ⟨1⟩, .real (5 / 2)]).Ground groundBindings :=
    .comparison rfl (.bound rfl rfl) (.constant rfl) (.reals ..)
  have hless : (Term.node .less [.integer 1, .var ⟨2⟩]).Ground groundBindings :=
    .comparison rfl (.constant rfl) (.bound rfl rfl) (.integers ..)
  refine .junction (.inl rfl) ?_
  simp only [List.forall_mem_cons]
  exact ⟨.var rfl, .not hequation,
    .junction (.inr rfl) (forall_mem_pair.2 ⟨hgreater, hless⟩), .junction (.inr rfl) (by simp),
    by simp⟩

theorem evaluate_ground_groundExample :
    groundExample.Ground groundBindings ∧
      (∀ p ∈ groundExample.parts, p.isVar = false → groundBindings.get? p = none) ∧
      ∃ b, groundExample.evaluate groundBindings = .ok (.bool b) ∧
        (b = true ↔ literal.Holds groundExample groundBindings.reading) ∧
        ∀ {D : Type} {I : Interpretation D}, I.Standard →
          ∀ v, b = true ↔ I.Holds groundExample (I.assign groundBindings v) := by
  have hσ : ∀ p ∈ groundExample.parts, p.isVar = false → groundBindings.get? p = none := by
    decide
  exact ⟨ground_groundExample, hσ, evaluate_ground.{0} ground_groundExample hσ⟩

end ClauseForm
