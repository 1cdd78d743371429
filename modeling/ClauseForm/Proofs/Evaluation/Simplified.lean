import ClauseForm.Proofs.Evaluation.Constants
import ClauseForm.Proofs.Evaluation.Meaning

/-!
# Nothing is left to fold

What folding can do away with is told by an operator and the terms right below it
(`ClauseForm.Term.Foldable`). Evaluation treats every operator once, from the inside out,
and what it puts in the place of an operator may be an argument of it, or what is negated
there; still, nothing foldable is left anywhere in the result
(`ClauseForm.Term.Simplified`). For whatever moves up was left by the evaluation of an
argument, and the operator that it moves up to is folded only afterwards.

So a second evaluation changes nothing (`ClauseForm.evaluate_simplified`).
-/

namespace ClauseForm

namespace Term

/-! ### What can be folded -/

/-- The operator at the top of the term can be folded away. -/
inductive Foldable : Term → Prop
  /-- A truth value stands below `&` or `|`. -/
  | truthValue {op : Op} {args : List Term} {b : Bool} : op = .and ∨ op = .or →
    .bool b ∈ args → Foldable (.node op args)
  /-- There are not two arguments below `&` or `|`. -/
  | few {op : Op} {args : List Term} : op = .and ∨ op = .or → args.length < 2 →
    Foldable (.node op args)
  /-- A truth value is negated. -/
  | negatedValue {b : Bool} {rest : List Term} : Foldable (.node .not (.bool b :: rest))
  /-- A negation is negated. -/
  | doubleNegation {args rest : List Term} : Foldable (.node .not (.node .not args :: rest))
  /-- Both sides of an equation or of a comparison are the same. -/
  | same {op : Op} {t : Term} : op.isPredicate = true → Foldable (.node op [t, t])
  /-- Both sides of an equation are constants. -/
  | constants {op : Op} {s t : Term} : op = .equals ∨ op = .notEquals → s.isConstant = true →
    t.isConstant = true → Foldable (.node op [s, t])
  /-- Both sides of a comparison are numbers of one kind. -/
  | numbers {op : Op} {s t : Term} {x y : Rat} : op.isComparison = true → OfOneKind s t x y →
    Foldable (.node op [s, t])

/-- No operator in the term can be folded away. -/
def Simplified (t : Term) : Prop :=
  ∀ p ∈ t.parts, ¬p.Foldable

section Foldable

variable {op : Op} {s t : Term} {args : List Term}

theorem foldable_junction (hop : op = .and ∨ op = .or) :
    (Term.node op args).Foldable ↔ (∃ b, .bool b ∈ args) ∨ args.length < 2 := by
  constructor
  · intro h
    cases h with
    | truthValue _ hb => exact Or.inl ⟨_, hb⟩
    | few _ hlength => exact Or.inr hlength
    | negatedValue | doubleNegation => simp at hop
    | same hpred => obtain rfl | rfl := hop <;> cases hpred
    | constants heq => obtain rfl | rfl := hop <;> simp at heq
    | numbers hcomp => obtain rfl | rfl := hop <;> cases hcomp
  · rintro (⟨b, hb⟩ | hlength)
    · exact .truthValue hop hb
    · exact .few hop hlength

theorem foldable_not :
    (Term.node .not [s]).Foldable ↔ (∃ b, s = .bool b) ∨ ∃ args, s = .node .not args := by
  constructor
  · intro h
    cases h with
    | negatedValue => exact Or.inl ⟨_, rfl⟩
    | doubleNegation => exact Or.inr ⟨_, rfl⟩
    | truthValue hop | few hop => simp at hop
  · rintro (⟨b, rfl⟩ | ⟨args, rfl⟩)
    · exact .negatedValue
    · exact .doubleNegation

theorem foldable_equation (hop : op = .equals ∨ op = .notEquals) :
    (Term.node op [s, t]).Foldable ↔ s = t ∨ s.isConstant = true ∧ t.isConstant = true := by
  constructor
  · intro h
    cases h with
    | same => exact Or.inl rfl
    | constants _ hs ht => exact Or.inr ⟨hs, ht⟩
    | numbers hcomp => obtain rfl | rfl := hop <;> cases hcomp
    | truthValue hop' | few hop' => obtain rfl | rfl := hop <;> simp at hop'
    | negatedValue | doubleNegation => simp at hop
  · rintro (rfl | ⟨hs, ht⟩)
    · exact .same (by obtain rfl | rfl := hop <;> rfl)
    · exact .constants hop hs ht

theorem foldable_comparison (hop : op.isComparison = true) :
    (Term.node op [s, t]).Foldable ↔ s = t ∨ ∃ x y, OfOneKind s t x y := by
  constructor
  · intro h
    cases h with
    | same => exact Or.inl rfl
    | numbers _ hkind => exact Or.inr ⟨_, _, hkind⟩
    | constants heq => obtain rfl | rfl := heq <;> cases hop
    | truthValue hop' | few hop' => obtain rfl | rfl := hop' <;> cases hop
    | negatedValue | doubleNegation => cases hop
  · rintro (rfl | ⟨x, y, hkind⟩)
    · exact .same (Op.isPredicate_of_isComparison hop)
    · exact .numbers hop hkind

/-- Only `&`, `|`, `~` and predicates can be folded away. -/
theorem Foldable.op_cases (h : (Term.node op args).Foldable) :
    op = .and ∨ op = .or ∨ op = .not ∨ op.isPredicate = true := by
  cases h with
  | truthValue hop | few hop => exact hop.imp_right Or.inl
  | negatedValue | doubleNegation => exact Or.inr (Or.inr (Or.inl rfl))
  | same hop => exact Or.inr (Or.inr (Or.inr hop))
  | constants hop => obtain rfl | rfl := hop <;> exact Or.inr (Or.inr (Or.inr rfl))
  | numbers hop => exact Or.inr (Or.inr (Or.inr (Op.isPredicate_of_isComparison hop)))

end Foldable

section Simplified

variable {f : FunSym} {op : Op} {q : Quantifier} {vars : List Var} {body : Term} {args : List Term}

/-- Where there is no operator, there is nothing to fold. -/
theorem simplified_leaf {t : Term} (hparts : t.parts = [t]) (hop : t.op? = none) :
    t.Simplified := by
  intro p hp hfold
  obtain rfl : p = t := by simpa [hparts] using hp
  cases hfold <;> simp [op?] at hop

theorem simplified_bool (b : Bool) : (Term.bool b).Simplified :=
  simplified_leaf rfl rfl

theorem simplified_call : (Term.call f args).Simplified ↔ ∀ a ∈ args, a.Simplified := by
  simp only [Simplified, parts_call, List.forall_mem_cons, List.forall_mem_flatMap]
  exact and_iff_right (by rintro ⟨⟩)

theorem simplified_node : (Term.node op args).Simplified ↔
    ¬(Term.node op args).Foldable ∧ ∀ a ∈ args, a.Simplified := by
  simp only [Simplified, parts_node, List.forall_mem_cons, List.forall_mem_flatMap]

theorem simplified_quant : (Term.quant q vars body).Simplified ↔ body.Simplified := by
  simp only [Simplified, parts_quant, List.forall_mem_cons]
  exact and_iff_right (by rintro ⟨⟩)

end Simplified

/-! ### Folding leaves nothing to fold -/

variable {op : Op} {s t : Term} {args : List Term}

theorem simplified_foldJunction (hop : op = .and ∨ op = .or) (neutral : Bool)
    (hargs : ∀ a ∈ args, a.Simplified) : (foldJunction op neutral args).Simplified := by
  unfold foldJunction
  split
  · exact simplified_bool _
  · rename_i hsettled
    have hmem : ∀ a ∈ args.filter (· ≠ .bool neutral), a ∈ args := fun a ha =>
      (List.mem_filter.1 ha).1
    split
    · exact simplified_bool _
    · rename_i t hone
      exact hargs t (hmem t (hone ▸ List.mem_cons_self))
    · rename_i rest hnil hone
      refine simplified_node.2 ⟨fun h => ?_, fun a ha => hargs a (hmem a ha)⟩
      rcases (foldable_junction hop).1 h with ⟨b, hb⟩ | hlength
      · exact hsettled (settling_mem_of_mem_filter hb)
      · rcases Nat.le_one_iff_eq_zero_or_eq_one.1 (Nat.le_of_lt_succ hlength) with hzero | hsingle
        · exact hnil (List.length_eq_zero_iff.1 hzero)
        · obtain ⟨t, ht⟩ := List.length_eq_one_iff.1 hsingle
          exact hone t ht

theorem simplified_foldNegation (hs : s.Simplified) (h : foldNegation s = .ok t) :
    t.Simplified := by
  unfold foldNegation at h
  split at h
  · exact Except.ok.inj h ▸ simplified_bool _
  · cases h
  · exact Except.ok.inj h ▸ (simplified_node.1 hs).2 _ List.mem_cons_self
  · rename_i hbool hnone hnot
    refine Except.ok.inj h ▸ simplified_node.2 ⟨fun hfold => ?_, by simpa using hs⟩
    rcases foldable_not.1 hfold with ⟨b, rfl⟩ | ⟨args, rfl⟩
    · exact hbool b rfl
    · cases args with
      | nil => exact hnone rfl
      | cons a args => exact hnot a args rfl

theorem simplified_foldEquation (hop : op = .equals ∨ op = .notEquals) (positive : Bool)
    (hs : s.Simplified) (ht : t.Simplified) : (foldEquation op positive s t).Simplified := by
  unfold foldEquation
  split
  · exact simplified_bool _
  · rename_i hne
    split
    · exact simplified_bool _
    · rename_i hconst
      refine simplified_node.2 ⟨fun h => ?_, forall_mem_pair.2 ⟨hs, ht⟩⟩
      rcases (foldable_equation hop).1 h with heq | hboth
      · exact hne heq
      · exact hconst (by simpa using hboth)

theorem simplified_foldComparison (hop : op.isComparison = true) (reflexive : Bool)
    (hs : s.Simplified) (ht : t.Simplified) : (foldComparison op reflexive s t).Simplified := by
  unfold foldComparison
  split
  · exact simplified_bool _
  · rename_i hne
    split
    · exact simplified_bool _
    · rename_i hnone
      refine simplified_node.2 ⟨fun h => ?_, forall_mem_pair.2 ⟨hs, ht⟩⟩
      rcases (foldable_comparison hop).1 h with heq | hkind
      · exact hne heq
      · simpa [hnone] using (isSome_decide?_iff hop).2 hkind

/-- **Folding leaves nothing to fold**, if nothing is left in the arguments. -/
theorem simplified_fold (htakes : op.takes args.length = true) (hargs : ∀ a ∈ args, a.Simplified)
    (h : fold op args = .ok t) : t.Simplified := by
  cases op with
  | and => exact Except.ok.inj h ▸ simplified_foldJunction (.inl rfl) _ hargs
  | or => exact Except.ok.inj h ▸ simplified_foldJunction (.inr rfl) _ hargs
  | not =>
    obtain ⟨a, rfl⟩ := Op.exists_of_takes_one rfl htakes
    exact simplified_foldNegation (hargs a List.mem_cons_self) h
  | equals | notEquals =>
    obtain ⟨a, b, rfl⟩ := Op.exists_of_takes_two rfl htakes
    obtain ⟨ha, hb⟩ := forall_mem_pair.1 hargs
    exact Except.ok.inj h ▸ simplified_foldEquation (by simp) _ ha hb
  | less | lessEq | greater | greaterEq =>
    obtain ⟨a, b, rfl⟩ := Op.exists_of_takes_two rfl htakes
    obtain ⟨ha, hb⟩ := forall_mem_pair.1 hargs
    exact Except.ok.inj h ▸ simplified_foldComparison rfl _ ha hb
  | implies | iff | xor | nand | nor =>
    obtain ⟨a, b, rfl⟩ := Op.exists_of_takes_two rfl htakes
    refine Except.ok.inj h ▸ simplified_node.2 ⟨fun hfold => ?_, hargs⟩
    simpa [Op.isPredicate] using hfold.op_cases

/-! ### What folding does not change -/

theorem foldJunction_eq_node (hop : op = .and ∨ op = .or) (neutral : Bool)
    (h : ¬(Term.node op args).Foldable) : foldJunction op neutral args = .node op args := by
  simp only [foldable_junction hop, not_or, not_exists, Nat.not_lt] at h
  obtain ⟨hbools, hlength⟩ := h
  have hkept : args.filter (· ≠ .bool neutral) = args :=
    List.filter_eq_self.2 fun a ha => decide_eq_true fun heq => hbools neutral (heq ▸ ha)
  rw [foldJunction, if_neg (hbools _), hkept]
  rcases args with _ | ⟨a, _ | ⟨b, rest⟩⟩
  · simp at hlength
  · simp at hlength
  · rfl

theorem foldNegation_eq_neg (h : ¬(Term.neg s).Foldable) : foldNegation s = .ok (.neg s) := by
  unfold foldNegation
  split
  · exact absurd .negatedValue h
  · exact absurd .doubleNegation h
  · exact absurd .doubleNegation h
  · rfl

theorem foldEquation_eq_node (hop : op = .equals ∨ op = .notEquals) (positive : Bool)
    (h : ¬(Term.node op [s, t]).Foldable) :
    foldEquation op positive s t = .node op [s, t] := by
  rw [foldable_equation hop, not_or] at h
  rw [foldEquation, if_neg h.1, if_neg (by simpa using h.2)]

theorem foldComparison_eq_node (hop : op.isComparison = true) (reflexive : Bool)
    (h : ¬(Term.node op [s, t]).Foldable) :
    foldComparison op reflexive s t = .node op [s, t] := by
  rw [foldable_comparison hop, not_or, ← isSome_decide?_iff hop,
    Option.not_isSome_iff_eq_none] at h
  rw [foldComparison, if_neg h.1, h.2]

/-- **What is not foldable stays.** -/
theorem fold_eq_node (htakes : op.takes args.length = true) (h : ¬(Term.node op args).Foldable) :
    fold op args = .ok (.node op args) := by
  cases op with
  | and => exact congrArg _ (foldJunction_eq_node (.inl rfl) _ h)
  | or => exact congrArg _ (foldJunction_eq_node (.inr rfl) _ h)
  | not =>
    obtain ⟨a, rfl⟩ := Op.exists_of_takes_one rfl htakes
    exact foldNegation_eq_neg h
  | equals | notEquals =>
    obtain ⟨a, b, rfl⟩ := Op.exists_of_takes_two rfl htakes
    exact congrArg _ (foldEquation_eq_node (by simp) _ h)
  | less | lessEq | greater | greaterEq =>
    obtain ⟨a, b, rfl⟩ := Op.exists_of_takes_two rfl htakes
    exact congrArg _ (foldComparison_eq_node rfl _ h)
  | implies | iff | xor | nand | nor =>
    obtain ⟨a, b, rfl⟩ := Op.exists_of_takes_two rfl htakes
    rfl

/-! ### Evaluating once and twice -/

/-- What evaluation makes of a term: nothing in it can be folded, and no other variable occurs free
in it. -/
structure Simplifies (t t' : Term) : Prop where
  keepsArities : t'.KeepsArities
  simplified : t'.Simplified
  free : ∀ x ∈ t'.free, x ∈ t.free

/-- What is free in evaluated arguments was free in the arguments. -/
theorem mem_flatMap_free_of_simplifies {args args' : List Term}
    (h : List.Forall₂ Simplifies args args') {x : Var} (hx : x ∈ args'.flatMap free) :
    x ∈ args.flatMap free := by
  obtain ⟨a', ha', hx⟩ := List.mem_flatMap.1 hx
  obtain ⟨a, ha, hs⟩ := exists_of_mem_forall₂ h a' ha'
  exact List.mem_flatMap.2 ⟨a, ha, hs.free x hx⟩

/-- Folding an operator over simplified arguments simplifies the whole. -/
theorem Simplifies.of_fold {args' : List Term} (htakes : op.takes args.length = true)
    (hargs : List.Forall₂ Simplifies args args') (h : fold op args' = .ok t) :
    Simplifies (.node op args) t := by
  refine ⟨(folded h).partwise partwise_keepsArities
    (forall_mem_right_of_forall₂ hargs fun hs => hs.keepsArities),
    simplified_fold (hargs.length_eq ▸ htakes)
      (forall_mem_right_of_forall₂ hargs fun hs => hs.simplified) h, fun x hx => ?_⟩
  rw [free_node]
  exact mem_flatMap_free_of_simplifies hargs (List.mem_flatMap.2 ((folded h).mem_free hx))

/-- **A term is evaluated to one in which nothing can be folded**, and in which no other variable
occurs free. -/
theorem exists_evaluate_simplifies (h : t.KeepsArities) :
    ∃ t', t.evaluate .empty = .ok t' ∧ Simplifies t t' := by
  induction t using Term.induct with
  | call f args ih =>
    obtain ⟨args', hargs, hs⟩ :=
      exists_evaluateAll fun a ha => ih a ha (keepsArities_call.1 h a ha)
    refine ⟨.call f args', evaluate_call rfl hargs,
      keepsArities_call.2 (forall_mem_right_of_forall₂ hs fun hs => hs.keepsArities),
      simplified_call.2 (forall_mem_right_of_forall₂ hs fun hs => hs.simplified), ?_⟩
    rw [free_call, free_call]
    exact fun x => mem_flatMap_free_of_simplifies hs
  | node op args ih =>
    obtain ⟨htakes, hkeeps⟩ := keepsArities_node.1 h
    obtain ⟨args', hargs, hs⟩ := exists_evaluateAll fun a ha => ih a ha (hkeeps a ha)
    obtain ⟨t', ht', -⟩ := exists_fold.{0} (keepsArities_node.2 ⟨hs.length_eq ▸ htakes,
      forall_mem_right_of_forall₂ hs fun hs => hs.keepsArities⟩)
    exact ⟨t', (evaluate_node rfl hargs).trans ht', .of_fold htakes hs ht'⟩
  | quant q vars body ih =>
    obtain ⟨body', hbody, hs⟩ := ih (keepsArities_quant.1 h)
    refine ⟨.quant q vars body', evaluate_quant rfl (by rwa [foldl_remove_empty]),
      keepsArities_quant.2 hs.keepsArities, simplified_quant.2 hs.simplified, fun x hx => ?_⟩
    rw [free_quant, List.mem_filter] at hx ⊢
    exact ⟨hs.free x hx.1, hx.2⟩
  | _ => exact ⟨_, rfl, h, simplified_leaf rfl rfl, fun x hx => hx⟩

/-- A term in which nothing can be folded stays as it is. -/
theorem Simplified.evaluate_eq (hs : t.Simplified) (h : t.KeepsArities) :
    t.evaluate .empty = .ok t := by
  induction t using Term.induct with
  | call f args ih =>
    exact evaluate_call rfl (evaluateAll_eq_self fun a ha =>
      ih a ha (simplified_call.1 hs a ha) (keepsArities_call.1 h a ha))
  | node op args ih =>
    obtain ⟨hnot, hargs⟩ := simplified_node.1 hs
    obtain ⟨htakes, hkeeps⟩ := keepsArities_node.1 h
    rw [evaluate_node rfl (evaluateAll_eq_self fun a ha => ih a ha (hargs a ha) (hkeeps a ha))]
    exact fold_eq_node htakes hnot
  | quant q vars body ih =>
    refine evaluate_quant rfl ?_
    rw [foldl_remove_empty]
    exact ih (simplified_quant.1 hs) (keepsArities_quant.1 h)
  | _ => rfl

end Term

open Term

/-- **One evaluation is enough.** A well-formed term is evaluated to one that stays as it is when
it is evaluated again, in which nothing can be folded at any depth, and which has no free variables
that the term does not have. -/
theorem evaluate_simplified {t : Term} (ht : t.WellFormed) :
    ∃ t', t.evaluate .empty = .ok t' ∧ t'.evaluate .empty = .ok t' ∧
      (∀ p ∈ t'.parts, ¬p.Foldable) ∧ ∀ x ∈ t'.freeVars, x ∈ t.freeVars := by
  obtain ⟨t', hrun, hs⟩ := exists_evaluate_simplifies ht.keepsArities
  refine ⟨t', hrun, hs.simplified.evaluate_eq hs.keepsArities, hs.simplified, fun x hx => ?_⟩
  exact mem_freeVars.2 (hs.free x (mem_freeVars.1 hx))

/-- The formula `~(true & ~~(false | p(1 <= 2, X = X)) & ?[Y]: ~~(Y != Z | ~(1 = "a")))`. -/
def foldingExample : Term :=
  .neg (.conj [.bool true,
    .neg (.neg (.disj [.bool false, .call ⟨0, .declared⟩
      [.node .lessEq [.integer 1, .integer 2], .eq (.var ⟨0⟩) (.var ⟨0⟩)]])),
    .quant .exist [⟨1⟩] (.neg (.neg (.disj [.node .notEquals [.var ⟨1⟩, .var ⟨2⟩],
      .neg (.eq (.integer 1) (.object "a"))])))])

theorem evaluate_simplified_foldingExample :
    foldingExample.WellFormed ∧
      ∃ t', foldingExample.evaluate .empty = .ok t' ∧ t'.evaluate .empty = .ok t' ∧
        (∀ p ∈ t'.parts, ¬p.Foldable) ∧ ∀ x ∈ t'.freeVars, x ∈ foldingExample.freeVars :=
  ⟨by decide, evaluate_simplified (by decide)⟩

end ClauseForm
