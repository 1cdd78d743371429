import Mathlib.Data.List.Forall2
import ClauseForm.Clause
import ClauseForm.Proofs.Syntax.Formula

/-!
# What formulas say

An interpretation (`ClauseForm.Interpretation`) over a domain `D` gives every
function symbol a function and a relation, every constant an element, and every
comparison a relation; `=` is identity. Under a valuation of the variables an
object then stands for an element (`ClauseForm.Interpretation.denote`), and a
formula is true or not (`ClauseForm.Interpretation.Holds`).

Two kinds of interpretation matter below. In a *standard* one
(`ClauseForm.Interpretation.Standard`), constants that differ stand for different
elements and comparisons order numbers as numbers are ordered. And the
interpretations that *agree off* a set of symbols with a given one
(`ClauseForm.Interpretation.AgreesOff`) are those that it can be changed into by
choosing anew what these symbols mean.
-/

universe u

namespace ClauseForm

/-! ### Interpretations -/

/-- What the symbols of formulas mean over a domain. A function symbol that stands alone is read as
applied to no arguments. -/
structure Interpretation (D : Type u) where
  /-- The function that a symbol stands for where an object is asked for. -/
  fn : FunSym → List D → D
  /-- The relation that a symbol stands for where a formula is asked for. -/
  rel : FunSym → List D → Prop
  /-- The element that a constant stands for; what this says of other terms plays no part. -/
  value : Term → D
  /-- The relation that a comparison stands for. -/
  compares : Op → D → D → Prop

/-- What a connective makes of the truth of its arguments. -/
def Op.connects : Op → List Prop → Prop
  | .and, ps => ∀ p ∈ ps, p
  | .or, ps => ∃ p ∈ ps, p
  | .not, [p] => ¬p
  | .implies, [p, q] => p → q
  | .iff, [p, q] => (p ↔ q)
  | .xor, [p, q] => ¬(p ↔ q)
  | .nand, [p, q] => ¬(p ∧ q)
  | .nor, [p, q] => ¬(p ∨ q)
  | _, _ => False

/-- How a comparison orders numbers. -/
def Op.orders : Op → Rat → Rat → Prop
  | .less, x, y => x < y
  | .lessEq, x, y => x ≤ y
  | .greater, x, y => y < x
  | .greaterEq, x, y => y ≤ x
  | _, _, _ => False

namespace Interpretation

variable {D : Type u}

/-- What a predicate says of elements. -/
def relates (I : Interpretation D) : Op → List D → Prop
  | .equals, [a, b] => a = b
  | .notEquals, [a, b] => a ≠ b
  | op, [a, b] => I.compares op a b
  | _, _ => False

/-! ### Elements and truth -/

mutual

/-- The element that an object stands for. -/
def denote (I : Interpretation D) (v : Var → D) : Term → D
  | .var x => v x
  | .const f => I.fn f []
  | .call f args => I.fn f (denoteAll I v args)
  | t => I.value t

/-- The elements that several objects stand for. -/
def denoteAll (I : Interpretation D) (v : Var → D) : List Term → List D
  | [] => []
  | t :: ts => denote I v t :: denoteAll I v ts

end

theorem denoteAll_eq_map (I : Interpretation D) (v : Var → D) (ts : List Term) :
    I.denoteAll v ts = ts.map (I.denote v) := by
  induction ts with
  | nil => rfl
  | cons t ts ih => exact congrArg (I.denote v t :: ·) ih

mutual

/-- Whether a formula is true under a valuation. A variable that stands where a formula is asked for
is true if its value is that of the true constant. -/
def Holds (I : Interpretation D) : Term → (Var → D) → Prop
  | .bool b, _ => b = true
  | .var x, v => v x = I.value (.bool true)
  | .const f, _ => I.rel f []
  | .call f args, v => I.rel f (I.denoteAll v args)
  | .node op args, v =>
    if op.isPredicate then I.relates op (I.denoteAll v args) else op.connects (truths I args v)
  | .quant .all vars body, v => ∀ w : Var → D, (∀ x ∉ vars, w x = v x) → Holds I body w
  | .quant .exist vars body, v => ∃ w : Var → D, (∀ x ∉ vars, w x = v x) ∧ Holds I body w
  | _, _ => False

/-- Whether each of several formulas is true under a valuation. -/
def truths (I : Interpretation D) : List Term → (Var → D) → List Prop
  | [], _ => []
  | t :: ts, v => Holds I t v :: truths I ts v

end

theorem truths_eq_map (I : Interpretation D) (ts : List Term) (v : Var → D) :
    I.truths ts v = ts.map (I.Holds · v) := by
  induction ts with
  | nil => rfl
  | cons t ts ih => exact congrArg (I.Holds t v :: ·) ih

/-- Lists of formulas that are equivalent member by member have the same truth values. -/
theorem truths_eq_of_forall₂ {P Q : Term → Prop} {ts us : List Term}
    (h : List.Forall₂ (fun t u => P t ↔ Q u) ts us) : ts.map P = us.map Q := by
  induction h with
  | nil => rfl
  | cons hd _ ih => rw [List.map_cons, List.map_cons, ih, propext hd]

/-- Every clause is true, whatever its variables stand for. -/
def Satisfies (I : Interpretation D) (cs : List Clause) : Prop :=
  ∀ c ∈ cs, ∀ v : Var → D, ∃ l ∈ c.literals, I.Holds l v

/-- The formula is true, whatever its free variables stand for. -/
def Models (I : Interpretation D) (t : Term) : Prop :=
  ∀ v : Var → D, I.Holds t v

/-! ### Standard interpretations -/

/-- Constants that differ stand for different elements, and comparisons order numbers of one kind
like their values, and other elements at least so that `<` and `>` never hold of an element and
itself and `<=` and `>=` always do. -/
structure Standard (I : Interpretation D) : Prop where
  value_injective : ∀ {s t : Term}, s.isConstant = true → t.isConstant = true →
    I.value s = I.value t → s = t
  less_irrefl : ∀ d, ¬I.compares .less d d
  greater_irrefl : ∀ d, ¬I.compares .greater d d
  lessEq_refl : ∀ d, I.compares .lessEq d d
  greaterEq_refl : ∀ d, I.compares .greaterEq d d
  integers : ∀ {op : Op} (m n : Int), op.isComparison = true →
    (I.compares op (I.value (.integer m)) (I.value (.integer n)) ↔ op.orders m n)
  rationals : ∀ {op : Op} (x y : Rat), op.isComparison = true →
    (I.compares op (I.value (.rational x)) (I.value (.rational y)) ↔ op.orders x y)
  reals : ∀ {op : Op} (x y : Rat), op.isComparison = true →
    (I.compares op (I.value (.real x)) (I.value (.real y)) ↔ op.orders x y)

/-! ### Changing what some symbols mean -/

/-- Another interpretation says the same of everything but certain symbols. -/
structure AgreesOff (I : Interpretation D) (changed : FunSym → Prop) (J : Interpretation D) :
    Prop where
  fn : ∀ f, ¬changed f → J.fn f = I.fn f
  rel : ∀ f, ¬changed f → J.rel f = I.rel f
  value : J.value = I.value
  compares : J.compares = I.compares

namespace AgreesOff

variable {I J K : Interpretation D} {p q : FunSym → Prop}

theorem refl (I : Interpretation D) (p : FunSym → Prop) : I.AgreesOff p I :=
  ⟨fun _ _ => rfl, fun _ _ => rfl, rfl, rfl⟩

theorem mono (h : I.AgreesOff p J) (hpq : ∀ f, p f → q f) : I.AgreesOff q J :=
  ⟨fun f hf => h.fn f fun hp => hf (hpq f hp), fun f hf => h.rel f fun hp => hf (hpq f hp),
    h.value, h.compares⟩

theorem trans (h : I.AgreesOff p J) (h' : J.AgreesOff p K) : I.AgreesOff p K :=
  ⟨fun f hf => (h'.fn f hf).trans (h.fn f hf), fun f hf => (h'.rel f hf).trans (h.rel f hf),
    h'.value.trans h.value, h'.compares.trans h.compares⟩

theorem symm (h : I.AgreesOff p J) : J.AgreesOff p I :=
  ⟨fun f hf => (h.fn f hf).symm, fun f hf => (h.rel f hf).symm, h.value.symm, h.compares.symm⟩

/-- What is standard about an interpretation is not a matter of its symbols. -/
theorem standard (h : I.AgreesOff p J) (hI : I.Standard) : J.Standard := by
  have hv := h.value
  have hc := h.compares
  cases I
  cases J
  subst hv hc
  exact ⟨hI.1, hI.2, hI.3, hI.4, hI.5, hI.6, hI.7, hI.8⟩

end AgreesOff

/-! ### Truth, connective by connective -/

section Holds

variable (I : Interpretation D) (v : Var → D)

@[simp]
theorem denote_var (x : Var) : I.denote v (.var x) = v x := rfl

@[simp]
theorem denote_const (f : FunSym) : I.denote v (.const f) = I.fn f [] := rfl

@[simp]
theorem denote_call (f : FunSym) (args : List Term) :
    I.denote v (.call f args) = I.fn f (args.map (I.denote v)) :=
  congrArg (I.fn f) (denoteAll_eq_map I v args)

@[simp]
theorem holds_bool (b : Bool) : I.Holds (.bool b) v ↔ b = true := .rfl

@[simp]
theorem holds_const (f : FunSym) : I.Holds (.const f) v ↔ I.rel f [] := .rfl

@[simp]
theorem holds_call (f : FunSym) (args : List Term) :
    I.Holds (.call f args) v ↔ I.rel f (args.map (I.denote v)) :=
  iff_of_eq (congrArg (I.rel f) (denoteAll_eq_map I v args))

theorem holds_predicate {op : Op} (h : op.isPredicate = true) (args : List Term) :
    I.Holds (.node op args) v ↔ I.relates op (args.map (I.denote v)) := by
  rw [Holds, if_pos h, denoteAll_eq_map]

theorem holds_connective {op : Op} (h : op.isPredicate = false) (args : List Term) :
    I.Holds (.node op args) v ↔ op.connects (args.map (I.Holds · v)) := by
  rw [Holds, if_neg (by simp [h]), truths_eq_map]

/-- Connectives over formulas that say the same one by one say the same, also from one
interpretation and valuation to others. -/
theorem holds_connective_congr {I J : Interpretation D} {v w : Var → D} {op : Op}
    (hop : op.isPredicate = false) {ts us : List Term}
    (h : List.Forall₂ (fun t u => I.Holds t v ↔ J.Holds u w) ts us) :
    I.Holds (.node op ts) v ↔ J.Holds (.node op us) w := by
  rw [holds_connective I v hop, holds_connective J w hop, truths_eq_of_forall₂ h]

@[simp]
theorem holds_conj (args : List Term) :
    I.Holds (.node .and args) v ↔ ∀ a ∈ args, I.Holds a v := by
  rw [holds_connective I v rfl]
  exact List.forall_mem_map

@[simp]
theorem holds_disj (args : List Term) :
    I.Holds (.node .or args) v ↔ ∃ a ∈ args, I.Holds a v := by
  rw [holds_connective I v rfl]
  constructor
  · rintro ⟨p, hp, h⟩
    obtain ⟨a, ha, rfl⟩ := List.mem_map.1 hp
    exact ⟨a, ha, h⟩
  · rintro ⟨a, ha, h⟩
    exact ⟨_, List.mem_map_of_mem ha, h⟩

@[simp]
theorem holds_not (t : Term) : I.Holds (.node .not [t]) v ↔ ¬I.Holds t v := by
  rw [holds_connective I v rfl]
  rfl

@[simp]
theorem holds_implies (s t : Term) :
    I.Holds (.node .implies [s, t]) v ↔ (I.Holds s v → I.Holds t v) := by
  rw [holds_connective I v rfl]
  rfl

@[simp]
theorem holds_iff (s t : Term) :
    I.Holds (.node .iff [s, t]) v ↔ (I.Holds s v ↔ I.Holds t v) := by
  rw [holds_connective I v rfl]
  rfl

@[simp]
theorem holds_xor (s t : Term) :
    I.Holds (.node .xor [s, t]) v ↔ ¬(I.Holds s v ↔ I.Holds t v) := by
  rw [holds_connective I v rfl]
  rfl

@[simp]
theorem holds_nand (s t : Term) :
    I.Holds (.node .nand [s, t]) v ↔ ¬(I.Holds s v ∧ I.Holds t v) := by
  rw [holds_connective I v rfl]
  rfl

@[simp]
theorem holds_nor (s t : Term) :
    I.Holds (.node .nor [s, t]) v ↔ ¬(I.Holds s v ∨ I.Holds t v) := by
  rw [holds_connective I v rfl]
  rfl

@[simp]
theorem holds_equals (s t : Term) :
    I.Holds (.node .equals [s, t]) v ↔ I.denote v s = I.denote v t := by
  rw [holds_predicate I v rfl]
  rfl

@[simp]
theorem holds_notEquals (s t : Term) :
    I.Holds (.node .notEquals [s, t]) v ↔ I.denote v s ≠ I.denote v t := by
  rw [holds_predicate I v rfl]
  rfl

theorem holds_conj_map (f : Term → Term) (args : List Term) :
    I.Holds (.node .and (args.map f)) v ↔ ∀ a ∈ args, I.Holds (f a) v := by
  rw [holds_conj]
  exact List.forall_mem_map

theorem holds_disj_map (f : Term → Term) (args : List Term) :
    I.Holds (.node .or (args.map f)) v ↔ ∃ a ∈ args, I.Holds (f a) v := by
  rw [holds_disj]
  constructor
  · rintro ⟨b, hb, h⟩
    obtain ⟨a, ha, rfl⟩ := List.mem_map.1 hb
    exact ⟨a, ha, h⟩
  · rintro ⟨a, ha, h⟩
    exact ⟨_, List.mem_map_of_mem ha, h⟩

@[simp]
theorem holds_all (vars : List Var) (body : Term) :
    I.Holds (.quant .all vars body) v ↔
      ∀ w : Var → D, (∀ x ∉ vars, w x = v x) → I.Holds body w :=
  .rfl

@[simp]
theorem holds_exist (vars : List Var) (body : Term) :
    I.Holds (.quant .exist vars body) v ↔
      ∃ w : Var → D, (∀ x ∉ vars, w x = v x) ∧ I.Holds body w :=
  .rfl

end Holds

end Interpretation

end ClauseForm
