import ClauseForm.Evaluate
import ClauseForm.Proofs.Semantics.Interpretation
import ClauseForm.Proofs.Syntax.WellFormed

/-!
# Folding says the same

Over formulas with the argument counts kept, folding an operator
(`ClauseForm.Term.fold`) gives a formula that says the same in every standard
interpretation (`ClauseForm.Term.exists_fold`, `ClauseForm.Term.Restates.of_fold`). Nothing
stands in it but what stood in the arguments, truth values, and possibly the operator on
top (`ClauseForm.Term.Folded.mem_parts`).
-/

universe u

namespace ClauseForm

/-! ### Comparing numbers -/

namespace Op

variable {op : Op}

theorem isPredicate_of_isComparison (h : op.isComparison = true) : op.isPredicate = true := by
  cases op <;> simp_all [isComparison, isPredicate]

/-- Whether a comparison holds of an element and itself. -/
def ofEqual : Op → Bool
  | .lessEq | .greaterEq => true
  | _ => false

end Op

namespace Term

open Interpretation

/-- Numbers of one kind are decided as numbers are ordered. -/
theorem orders_of_compare {op : Op} (hop : op.isComparison = true) {x y : Rat} {order : Ordering}
    (hlt : order.isLT = true ↔ x < y) (hle : order.isLE = true ↔ x ≤ y) {s t : Term}
    (h : compare? s t = some order) {b : Bool} (hb : decide? op s t = some b) :
    op.orders x y ↔ b = true := by
  have hgt : order.isGT = true ↔ y < x := by
    rw [← Rat.not_le, ← hle]
    cases order <;> simp
  have hge : order.isGE = true ↔ y ≤ x := by
    rw [← Rat.not_lt, ← hlt]
    cases order <;> simp
  cases op with
  | less =>
    simp only [decide?, lt?, h, Option.map_some, Option.some.injEq] at hb
    exact hb ▸ hlt.symm
  | lessEq =>
    simp only [decide?, le?, h, Option.map_some, Option.some.injEq] at hb
    exact hb ▸ hle.symm
  | greater =>
    simp only [decide?, gt?, h, Option.map_some, Option.some.injEq] at hb
    exact hb ▸ hgt.symm
  | greaterEq =>
    simp only [decide?, ge?, h, Option.map_some, Option.some.injEq] at hb
    exact hb ▸ hge.symm
  | _ => simp [Op.isComparison] at hop

/-- **A comparison that is decided is decided rightly.** -/
theorem compares_of_decide {D : Type u} {I : Interpretation D} (hI : I.Standard) {op : Op}
    (hop : op.isComparison = true) {s t : Term} {b : Bool} (h : decide? op s t = some b)
    (v : Var → D) : I.compares op (I.denote v s) (I.denote v t) ↔ b = true := by
  have hnone : compare? s t = none → False := by
    intro hc
    cases op <;> simp [decide?, lt?, le?, gt?, ge?, hc] at h hop
  have hint : ∀ m n : Int, (compareOfLessAndEq m n).isLE = true ↔ m ≤ n := fun m n =>
    isLE_compareOfLessAndEq Int.le_antisymm Int.not_le Int.le_total
  have hrat : ∀ x y : Rat, (compareOfLessAndEq x y).isLE = true ↔ x ≤ y := fun x y =>
    isLE_compareOfLessAndEq Rat.le_antisymm Rat.not_le fun _ _ => Rat.le_total
  cases s <;> cases t <;> try exact absurd rfl hnone
  case integer.integer m n =>
    refine (hI.integers m n hop).trans (orders_of_compare hop ?_ ?_ rfl h)
    · rw [Ordering.isLT_iff_eq_lt, compareOfLessAndEq_eq_lt, Rat.intCast_lt_intCast]
    · rw [hint, Rat.intCast_le_intCast]
  case rational.rational x y =>
    refine (hI.rationals x y hop).trans (orders_of_compare hop ?_ (hrat x y) rfl h)
    rw [Ordering.isLT_iff_eq_lt, compareOfLessAndEq_eq_lt]
  case real.real x y =>
    refine (hI.reals x y hop).trans (orders_of_compare hop ?_ (hrat x y) rfl h)
    rw [Ordering.isLT_iff_eq_lt, compareOfLessAndEq_eq_lt]

/-! ### Folding one operator -/

section Holds

variable {D : Type u} (I : Interpretation D) (v : Var → D)

/-- The truth value that does not matter below the operator. -/
def IsNeutral (op : Op) (neutral : Bool) : Prop :=
  op = .and ∧ neutral = true ∨ op = .or ∧ neutral = false

/-- A conjunction or disjunction has the neutral truth value where all its arguments have. -/
theorem holds_junction_iff_neutral {op : Op} {neutral : Bool} (h : IsNeutral op neutral)
    (args : List Term) :
    (I.Holds (.node op args) v ↔ neutral = true) ↔ ∀ a ∈ args, (I.Holds a v ↔ neutral = true) := by
  rcases h with ⟨rfl, rfl⟩ | ⟨rfl, rfl⟩
  · simp
  · simp

/-- Dropping neutral truth values from a conjunction or disjunction, and settling it by the other
one, says the same. -/
theorem holds_foldJunction {op : Op} {neutral : Bool} (h : IsNeutral op neutral)
    (args : List Term) :
    I.Holds (foldJunction op neutral args) v ↔ I.Holds (.node op args) v := by
  have hfilter : (∀ a ∈ args.filter (· ≠ .bool neutral), (I.Holds a v ↔ neutral = true)) ↔
      ∀ a ∈ args, (I.Holds a v ↔ neutral = true) := by
    refine ⟨fun h a ha => ?_, fun h a ha => h a (List.mem_filter.1 ha).1⟩
    by_cases hneutral : a = .bool neutral
    · rw [hneutral, holds_bool]
    · exact h a (List.mem_filter.2 ⟨ha, by simpa using hneutral⟩)
  -- compared with the neutral value, `&` and `|` say the same: that every member has it
  have hsame : (I.Holds (foldJunction op neutral args) v ↔ neutral = true) ↔
      (I.Holds (.node op args) v ↔ neutral = true) := by
    rw [holds_junction_iff_neutral I v h, foldJunction]
    split
    · rename_i hsettled
      refine iff_of_false ?_ fun h => ?_
      · cases neutral <;> simp
      · have hb := h _ hsettled
        cases neutral <;> simp at hb
    · rw [← hfilter]
      split
      · rename_i hnil
        rw [hnil]
        simp
      · rename_i t hone
        rw [hone]
        simp
      · rw [holds_junction_iff_neutral I v h]
  cases neutral
  · by_cases hnode : I.Holds (.node op args) v
    · simpa [hnode] using hsame
    · simpa [hnode] using hsame
  · simpa using hsame

/-- A truth value that does not count as neutral settles a conjunction or disjunction. -/
theorem settling_mem_of_mem_filter {args : List Term} {neutral b : Bool}
    (h : .bool b ∈ args.filter (· ≠ .bool neutral)) : .bool (!neutral) ∈ args := by
  obtain ⟨hmem, hne⟩ := List.mem_filter.1 h
  have hb : b = !neutral := Bool.eq_not.2 (by simpa using hne)
  exact hb ▸ hmem

/-- The value of a constant is a matter of the interpretation alone. -/
theorem denote_of_isConstant {t : Term} (h : t.isConstant = true) : I.denote v t = I.value t := by
  cases t <;> first | rfl | simp [isConstant, isNumeric] at h

/-- Equations and negated equations of equal operands, and of constants that differ, are decided. -/
theorem holds_foldEquation {I : Interpretation D} (hI : I.Standard) (v : Var → D) {op : Op}
    {positive : Bool} (hop : ∀ s t, I.Holds (.node op [s, t]) v ↔
      (I.denote v s = I.denote v t ↔ positive = true)) (s t : Term) :
    I.Holds (foldEquation op positive s t) v ↔ I.Holds (.node op [s, t]) v := by
  unfold foldEquation
  split
  · rename_i hst
    rw [hst, holds_bool, hop]
    exact (iff_true_left rfl).symm
  · rename_i hst
    split
    · rename_i hconst
      rw [Bool.and_eq_true] at hconst
      have hne : I.denote v s ≠ I.denote v t := by
        rw [denote_of_isConstant I v hconst.1, denote_of_isConstant I v hconst.2]
        exact fun he => hst (hI.value_injective hconst.1 hconst.2 he)
      rw [holds_bool, hop]
      cases positive <;> simp [hne]
    · rfl

/-- Comparisons of equal operands, and of numbers of one kind, are decided. -/
theorem holds_foldComparison {I : Interpretation D} (hI : I.Standard) (v : Var → D) {op : Op}
    (hop : op.isComparison = true) (s t : Term) :
    I.Holds (foldComparison op op.ofEqual s t) v ↔ I.Holds (.node op [s, t]) v := by
  have hholds : ∀ s t, I.Holds (.node op [s, t]) v ↔
      I.compares op (I.denote v s) (I.denote v t) := by
    intro s t
    rw [holds_predicate I v (Op.isPredicate_of_isComparison hop)]
    cases op <;> first | rfl | simp [Op.isComparison] at hop
  have hself : ∀ d, I.compares op d d ↔ op.ofEqual = true := by
    intro d
    cases op with
    | less => simpa [Op.ofEqual] using hI.less_irrefl d
    | lessEq => simpa [Op.ofEqual] using hI.lessEq_refl d
    | greater => simpa [Op.ofEqual] using hI.greater_irrefl d
    | greaterEq => simpa [Op.ofEqual] using hI.greaterEq_refl d
    | _ => simp [Op.isComparison] at hop
  unfold foldComparison
  split
  · rename_i hst
    rw [hst, holds_bool, hholds, hself]
  · split
    · rename_i b hb
      rw [holds_bool, hholds, compares_of_decide hI hop hb]
    · rfl

/-- The negation of an evaluated formula. -/
theorem exists_foldNegation {t : Term} (ht : t.KeepsArities) :
    ∃ t', foldNegation t = .ok t' ∧
      ∀ {D : Type u} (I : Interpretation D) v, I.Holds t' v ↔ ¬I.Holds t v := by
  cases t with
  | bool b =>
    refine ⟨_, rfl, fun I v => ?_⟩
    cases b <;> simp
  | node op args =>
    by_cases hop : op = .not
    · subst hop
      obtain ⟨a, rfl⟩ := Op.exists_of_takes_one rfl (keepsArities_node.1 ht).1
      exact ⟨a, rfl, by simp⟩
    · refine ⟨.neg (.node op args), ?_, by simp [neg]⟩
      cases op <;> simp_all [foldNegation]
  | _ => exact ⟨_, rfl, by simp [neg]⟩

/-- **Folding an operator says the same**, in every standard interpretation. -/
theorem exists_fold {op : Op} {args : List Term} (h : (Term.node op args).KeepsArities) :
    ∃ t, fold op args = .ok t ∧ ∀ {D : Type u} {I : Interpretation D}, I.Standard →
      ∀ v, I.Holds t v ↔ I.Holds (.node op args) v := by
  obtain ⟨harity, hargs⟩ := keepsArities_node.1 h
  cases op with
  | and => exact ⟨_, rfl, fun _ v => holds_foldJunction _ v (.inl ⟨rfl, rfl⟩) args⟩
  | or => exact ⟨_, rfl, fun _ v => holds_foldJunction _ v (.inr ⟨rfl, rfl⟩) args⟩
  | not =>
    obtain ⟨s, rfl⟩ := Op.exists_of_takes_one rfl harity
    obtain ⟨t, hrun, ht⟩ := exists_foldNegation.{u} (hargs s (by simp))
    refine ⟨t, hrun, fun _ v => ?_⟩
    rw [ht, holds_not]
  | equals =>
    obtain ⟨s, t, rfl⟩ := Op.exists_of_takes_two rfl harity
    exact ⟨_, rfl, fun hI v => holds_foldEquation hI v (by simp) s t⟩
  | notEquals =>
    obtain ⟨s, t, rfl⟩ := Op.exists_of_takes_two rfl harity
    exact ⟨_, rfl, fun hI v => holds_foldEquation hI v (by simp) s t⟩
  | less | lessEq | greater | greaterEq =>
    obtain ⟨s, t, rfl⟩ := Op.exists_of_takes_two rfl harity
    exact ⟨_, rfl, fun hI v => holds_foldComparison hI v rfl s t⟩
  | implies | iff | xor | nand | nor =>
    obtain ⟨s, t, rfl⟩ := Op.exists_of_takes_two rfl harity
    exact ⟨_, rfl, fun _ _ => Iff.rfl⟩

end Holds

/-! ### What a folded formula is made of -/

/-- What folding an operator over arguments comes to: a truth value; for a connective, one of the
arguments or what is negated in it; or the operator over some of the arguments. -/
inductive Folded (op : Op) (args : List Term) : Term → Prop
  /-- The operator was decided. -/
  | bool (b : Bool) : Folded op args (.bool b)
  /-- The operator vanished over one argument. -/
  | arg {a : Term} : op.isPredicate = false → a ∈ args → Folded op args a
  /-- A negation was cancelled by another one. -/
  | cancelled {a : Term} {rest : List Term} : op.isPredicate = false →
    .node .not (a :: rest) ∈ args → Folded op args a
  /-- The operator stayed. -/
  | stays {rest : List Term} : op.takes rest.length = true → (∀ a ∈ rest, a ∈ args) →
    Folded op args (.node op rest)

/-- A binary operator that stays. -/
theorem Folded.pair {op : Op} (h : op.arity = some 2) (s t : Term) :
    Folded op [s, t] (.node op [s, t]) :=
  .stays (by simp [Op.takes, h]) fun _ ha => ha

theorem folded_junction {op : Op} (hop : op = .and ∨ op = .or) (neutral : Bool)
    (args : List Term) : Folded op args (foldJunction op neutral args) := by
  have hpred : op.isPredicate = false := by
    rcases hop with rfl | rfl
    · rfl
    · rfl
  have htakes : ∀ rest : List Term, op.takes rest.length = true := by
    rcases hop with rfl | rfl
    · exact fun _ => rfl
    · exact fun _ => rfl
  have hmem : ∀ a ∈ args.filter (· ≠ .bool neutral), a ∈ args := fun a ha =>
    (List.mem_filter.1 ha).1
  unfold foldJunction
  split
  · exact .bool _
  · split
    · exact .bool _
    · rename_i t hone
      exact .arg hpred (hmem t (hone ▸ List.mem_cons_self))
    · exact .stays (htakes _) hmem

theorem folded_equation {op : Op} (h : op.arity = some 2) (positive : Bool) (s t : Term) :
    Folded op [s, t] (foldEquation op positive s t) := by
  unfold foldEquation
  split
  · exact .bool _
  · split
    · exact .bool _
    · exact .pair h s t

theorem folded_comparison {op : Op} (h : op.arity = some 2) (reflexive : Bool) (s t : Term) :
    Folded op [s, t] (foldComparison op reflexive s t) := by
  unfold foldComparison
  split
  · exact .bool _
  · split
    · exact .bool _
    · exact .pair h s t

theorem folded_negation {s t : Term} (h : foldNegation s = .ok t) : Folded .not [s] t := by
  unfold foldNegation at h
  split at h
  · exact Except.ok.inj h ▸ .bool _
  · cases h
  · exact Except.ok.inj h ▸ .cancelled rfl List.mem_cons_self
  · exact Except.ok.inj h ▸ .stays rfl (by simp)

/-- **Folding comes to one of four things.** -/
theorem folded {op : Op} {args : List Term} {t : Term} (h : fold op args = .ok t) :
    Folded op args t := by
  unfold fold at h
  split at h
  · exact Except.ok.inj h ▸ folded_junction (.inl rfl) _ _
  · exact Except.ok.inj h ▸ folded_junction (.inr rfl) _ _
  · exact folded_negation h
  · exact Except.ok.inj h ▸ folded_equation rfl _ _ _
  · exact Except.ok.inj h ▸ folded_equation rfl _ _ _
  · exact Except.ok.inj h ▸ folded_comparison rfl _ _ _
  · exact Except.ok.inj h ▸ folded_comparison rfl _ _ _
  · exact Except.ok.inj h ▸ folded_comparison rfl _ _ _
  · exact Except.ok.inj h ▸ folded_comparison rfl _ _ _
  · split at h
    · rename_i htakes
      exact Except.ok.inj h ▸ .stays htakes fun _ ha => ha
    · cases h

namespace Folded

variable {op : Op} {args : List Term} {t : Term}

/-- Folding a formula gives a formula. -/
theorem isFormula (h : Folded op args t) (hf : (Term.node op args).isFormula = true) :
    t.isFormula = true := by
  cases h with
  | bool b => rfl
  | arg hop ha => exact ((isFormula_connective hop).1 hf).2 t ha
  | cancelled hop ha =>
    exact ((isFormula_connective rfl).1 (((isFormula_connective hop).1 hf).2 _ ha)).2 t
      List.mem_cons_self
  | stays htakes hrest =>
    by_cases hop : op.isPredicate = true
    · exact (isFormula_predicate hop).2 ⟨htakes, fun a ha =>
        ((isFormula_predicate hop).1 hf).2 a (hrest a ha)⟩
    · have hop : op.isPredicate = false := by simpa using hop
      exact (isFormula_connective hop).2 ⟨htakes, fun a ha =>
        ((isFormula_connective hop).1 hf).2 a (hrest a ha)⟩

/-- What is a matter of the parts of the arguments is one of the folded formula. -/
theorem partwise {P : Term → Prop} {Q : FunSym → Prop} {R : List Var → Prop}
    (hP : Partwise P Q R) (h : Folded op args t) (hargs : ∀ a ∈ args, P a) : P t := by
  cases h with
  | bool b => exact hP.bool b
  | arg _ ha => exact hargs t ha
  | cancelled _ ha => exact ((hP.node ..).1 (hargs _ ha)).2 t List.mem_cons_self
  | stays htakes hrest => exact (hP.node ..).2 ⟨htakes, fun a ha => hargs a (hrest a ha)⟩

/-- The parts of a folded formula other than itself stood in the arguments; and it did as well
unless it is a truth value or headed by the operator. -/
theorem mem_parts (h : Folded op args t) {p : Term} (hp : p ∈ t.parts) :
    (∃ b, p = .bool b) ∨ (∃ a ∈ args, p ∈ a.parts) ∨
      ∃ rest, p = .node op rest ∧ ∀ a ∈ rest, a ∈ args := by
  cases h with
  | bool b => exact Or.inl ⟨b, by simpa using hp⟩
  | arg _ ha => exact Or.inr (Or.inl ⟨t, ha, hp⟩)
  | cancelled _ ha =>
    exact Or.inr (Or.inl ⟨_, ha, mem_parts_trans hp (mem_parts_of_mem_args (by simp [Term.args]))⟩)
  | stays _ hrest =>
    rw [parts_node, List.mem_cons, List.mem_flatMap] at hp
    rcases hp with rfl | ⟨a, ha, hp⟩
    · exact Or.inr (Or.inr ⟨_, rfl, hrest⟩)
    · exact Or.inr (Or.inl ⟨a, hrest a ha, hp⟩)

/-- What operators gather from their arguments, and truth values do not have, folding does not bring
in either. -/
theorem mem_gathered {α : Type} {g : Term → List α} (hbool : ∀ b, g (.bool b) = [])
    (hnode : ∀ op args, g (.node op args) = args.flatMap g) (h : Folded op args t) {x : α}
    (hx : x ∈ g t) : ∃ a ∈ args, x ∈ g a := by
  cases h with
  | bool b => simp [hbool] at hx
  | arg _ ha => exact ⟨t, ha, hx⟩
  | @cancelled _ rest _ ha =>
    exact ⟨_, ha, by rw [hnode, List.flatMap_cons]; exact List.mem_append_left _ hx⟩
  | stays _ hrest =>
    rw [hnode, List.mem_flatMap] at hx
    obtain ⟨a, ha, hx⟩ := hx
    exact ⟨a, hrest a ha, hx⟩

/-- Folding mentions no symbol that the arguments do not mention. -/
theorem mem_funs (h : Folded op args t) {f : FunSym} (hf : f ∈ t.funs) : ∃ a ∈ args, f ∈ a.funs :=
  h.mem_gathered (fun _ => rfl) funs_node hf

/-- What occurs free in a folded formula occurs free in an argument. -/
theorem mem_free (h : Folded op args t) {x : Var} (hx : x ∈ t.free) : ∃ a ∈ args, x ∈ a.free :=
  h.mem_gathered (fun _ => rfl) free_node hx

/-- Folding brings no quantifiers. -/
theorem quantifierFree (h : Folded op args t) (hq : ∀ a ∈ args, a.QuantifierFree) :
    t.QuantifierFree := by
  intro p hp
  rcases h.mem_parts hp with ⟨b, rfl⟩ | ⟨a, ha, hp⟩ | ⟨rest, rfl, -⟩
  · rfl
  · exact hq a ha p hp
  · rfl

/-- Folding brings no quantifiers into the sides of biconditionals. -/
theorem openSides (h : Folded op args t) (ho : ∀ a ∈ args, a.OpenSides)
    (hsides : op = .iff ∨ op = .xor → ∀ a ∈ args, a.QuantifierFree) : t.OpenSides := by
  intro p hp hop
  rcases h.mem_parts hp with ⟨b, rfl⟩ | ⟨a, ha, hp⟩ | ⟨rest, rfl, hrest⟩
  · simp [isOp, op?] at hop
  · exact ho a ha p hp hop
  · have hop : op = .iff ∨ op = .xor := by simpa [isOp, op?] using hop
    exact fun a ha => hsides hop a (hrest a ha)

end Folded

/-! ### Saying the same -/

/-- A formula that says the same as another one in every standard interpretation. -/
structure Restates (t t' : Term) : Prop where
  isFormula : t'.isFormula = true
  holds : ∀ {D : Type u} {I : Interpretation D}, I.Standard →
    ∀ v, I.Holds t' v ↔ I.Holds t v

namespace Restates

variable {r s t body body' : Term} {op : Op} {args args' : List Term}

theorem refl (h : t.isFormula = true) : Restates.{u} t t :=
  ⟨h, fun _ _ => Iff.rfl⟩

theorem trans (h : Restates.{u} r s) (h' : Restates.{u} s t) : Restates.{u} r t :=
  ⟨h'.isFormula, fun hI v => (h'.holds hI v).trans (h.holds hI v)⟩

/-- Folding an operator gives a formula that says the same. -/
theorem of_fold (hf : (Term.node op args).isFormula = true) (ht : fold op args = .ok t) :
    Restates.{u} (.node op args) t := by
  refine ⟨(folded ht).isFormula hf, fun hI v => ?_⟩
  obtain ⟨t', ht', hholds⟩ := exists_fold.{u} (KeepsArities.of_isFormula hf)
  obtain rfl : t = t' := Except.ok.inj (ht.symm.trans ht')
  exact hholds hI v

/-- Connectives over formulas that say the same. -/
theorem connective (hop : op.isPredicate = false) (htakes : op.takes args.length = true)
    (h : List.Forall₂ Restates.{u} args args') : Restates.{u} (.node op args) (.node op args') := by
  refine ⟨(isFormula_connective hop).2 ⟨h.length_eq ▸ htakes,
    forall_mem_right_of_forall₂ h fun hs => hs.isFormula⟩, fun {D I} hI v => ?_⟩
  exact (holds_connective_congr hop (h.imp fun _ _ hs => (hs.holds hI v).symm)).symm

/-- Quantifiers over formulas that say the same. -/
theorem quant (q : Quantifier) (vars : List Var) (h : Restates.{u} body body') :
    Restates.{u} (.quant q vars body) (.quant q vars body') := by
  refine ⟨isFormula_quant.2 h.isFormula, fun hI v => ?_⟩
  cases q with
  | all => simp only [holds_all, h.holds hI]
  | exist => simp only [holds_exist, h.holds hI]

end Restates

/-- A formula is folded without a fault, to one that says the same. -/
theorem exists_fold_restates {op : Op} {args : List Term}
    (hf : (Term.node op args).isFormula = true) :
    ∃ t, fold op args = .ok t ∧ Restates.{u} (.node op args) t := by
  obtain ⟨t, ht, -⟩ := exists_fold.{u} (KeepsArities.of_isFormula hf)
  exact ⟨t, ht, .of_fold hf ht⟩

end Term

end ClauseForm
