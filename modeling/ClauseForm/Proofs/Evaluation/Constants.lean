import ClauseForm.Proofs.Evaluation.Folding

/-!
# Constants that stand for themselves

Numbers of one kind can be ordered by value (`ClauseForm.Term.OfOneKind`), and they are
what a comparison decides (`ClauseForm.Term.isSome_decide?_iff`).

So a standard interpretation can be written down whose elements are the terms
themselves (`ClauseForm.Interpretation.literal`): every constant stands for itself, `=`
is equality of terms, and comparisons order numbers of one kind by their exact values.
-/

namespace ClauseForm

/-! ### Numbers of one kind -/

namespace Term

/-- Two numbers of one kind, and their values. -/
inductive OfOneKind : Term → Term → Rat → Rat → Prop
  | integers (m n : Int) : OfOneKind (.integer m) (.integer n) m n
  | rationals (x y : Rat) : OfOneKind (.rational x) (.rational y) x y
  | reals (x y : Rat) : OfOneKind (.real x) (.real y) x y

namespace OfOneKind

variable {s t : Term} {x y x' y' : Rat}

theorem isConstant (h : OfOneKind s t x y) : s.isConstant = true ∧ t.isConstant = true := by
  cases h with
  | integers m n => exact ⟨rfl, rfl⟩
  | rationals x y => exact ⟨rfl, rfl⟩
  | reals x y => exact ⟨rfl, rfl⟩

/-- Numbers have one value. -/
theorem values_eq (h : OfOneKind s t x y) (h' : OfOneKind s t x' y') : x' = x ∧ y' = y := by
  cases h with
  | integers m n => cases h'; exact ⟨rfl, rfl⟩
  | rationals x y => cases h'; exact ⟨rfl, rfl⟩
  | reals x y => cases h'; exact ⟨rfl, rfl⟩

theorem eq_of_self (h : OfOneKind s s x y) : x = y := by
  cases h with
  | integers m => rfl
  | rationals x => rfl
  | reals x => rfl

end OfOneKind

/-- **A comparison is decided for numbers of one kind**, and for nothing else. -/
theorem isSome_decide?_iff {op : Op} (hop : op.isComparison = true) {s t : Term} :
    (decide? op s t).isSome = true ↔ ∃ x y, OfOneKind s t x y := by
  have hcompare : (decide? op s t).isSome = (compare? s t).isSome := by
    cases op with
    | less | lessEq | greater | greaterEq => exact Option.isSome_map
    | _ => simp [Op.isComparison] at hop
  rw [hcompare]
  constructor
  · intro h
    unfold compare? at h
    split at h
    · exact ⟨_, _, .integers ..⟩
    · exact ⟨_, _, .rationals ..⟩
    · exact ⟨_, _, .reals ..⟩
    · cases h
  · rintro ⟨x, y, h⟩
    cases h with
    | integers m n => rfl
    | rationals x y => rfl
    | reals x y => rfl

end Term

/-! ### The interpretation by terms -/

/-- How a comparison orders a number and itself. -/
theorem Op.orders_self {op : Op} (hop : op.isComparison = true) (x : Rat) :
    op.orders x x ↔ op.ofEqual = true := by
  cases op with
  | less | greater => simp [Op.orders, Op.ofEqual]
  | lessEq | greaterEq => simp [Op.orders, Op.ofEqual]
  | _ => simp [Op.isComparison] at hop

namespace Interpretation

open Term

/-- The interpretation over terms in which every constant stands for itself and no relation holds.
Comparisons order numbers of one kind by their values; beyond that they only hold, if at all, of an
element and itself. -/
def literal : Interpretation Term where
  fn f args := .call f args
  rel _ _ := False
  value := id
  compares op s t := (∃ x y, OfOneKind s t x y ∧ op.orders x y) ∨ s = t ∧ op.ofEqual = true

theorem literal_compares_self {op : Op} (hop : op.isComparison = true) (d : Term) :
    literal.compares op d d ↔ op.ofEqual = true := by
  constructor
  · rintro (⟨x, y, h, horders⟩ | ⟨-, hself⟩)
    · obtain rfl := h.eq_of_self
      exact (Op.orders_self hop x).1 horders
    · exact hself
  · exact fun hself => Or.inr ⟨rfl, hself⟩

theorem literal_compares {op : Op} (hop : op.isComparison = true) {s t : Term} {x y : Rat}
    (h : OfOneKind s t x y) : literal.compares op s t ↔ op.orders x y := by
  constructor
  · rintro (⟨x', y', h', horders⟩ | ⟨rfl, hself⟩)
    · obtain ⟨rfl, rfl⟩ := h.values_eq h'
      exact horders
    · obtain rfl := h.eq_of_self
      exact (Op.orders_self hop x).2 hself
  · exact fun horders => Or.inl ⟨x, y, h, horders⟩

/-- **There is a standard interpretation.** -/
theorem literal_standard : literal.Standard where
  value_injective _ _ h := h
  less_irrefl d h := by simpa [Op.ofEqual] using (literal_compares_self rfl d).1 h
  greater_irrefl d h := by simpa [Op.ofEqual] using (literal_compares_self rfl d).1 h
  lessEq_refl d := (literal_compares_self rfl d).2 rfl
  greaterEq_refl d := (literal_compares_self rfl d).2 rfl
  integers m n hop := literal_compares hop (.integers m n)
  rationals x y hop := literal_compares hop (.rationals x y)
  reals x y hop := literal_compares hop (.reals x y)

end Interpretation

end ClauseForm
