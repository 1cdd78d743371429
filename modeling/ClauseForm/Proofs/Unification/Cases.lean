import ClauseForm.Proofs.Substitution.Extension
import ClauseForm.Unify

/-!
# What unification does with two terms

Two terms that have been followed through the bindings are equal, or one of them is
a variable to be bound, or their tops agree and their arguments are to be made equal,
or nothing makes them equal (`ClauseForm.Term.unifyResolved_cases`). Every fact about
unification is proved along these four cases, at one level of depth after the other.

That the tops agree (`ClauseForm.Term.SameTop`) is less than that they are equal: function
symbols are compared by number alone.
-/

namespace ClauseForm

namespace Term

open Substitution

variable {τ : Var → Term} {σ σ' : Substitution} {s t : Term}
  {step : Term → Term → Substitution → Except UnifyError Substitution}

/-! ### Arguments -/

/-- Replacing in a term that is no variable is replacing in its arguments. -/
theorem args_subst (h : t.isVar = false) : (t.subst τ).args = t.args.map (subst τ) := by
  cases t with
  | var v => simp [isVar] at h
  | _ => simp [args]

/-- The variables of a term that is none are those of its arguments. -/
theorem vars_eq_flatMap_args (h : t.isVar = false) : t.vars = t.args.flatMap vars := by
  cases t with
  | var v => simp [isVar] at h
  | call | node | quant => simp [args]
  | _ => rfl

theorem isVar_iff : t.isVar = true ↔ ∃ v, t = .var v := by
  cases t <;> simp [isVar]

/-! ### Sizes -/

theorem length_flatMap_parts {ts : List Term} (h : ∀ a ∈ ts, a.parts.length = a.size) :
    (ts.flatMap parts).length = sizeAll ts := by
  induction ts with
  | nil => rfl
  | cons t ts ih =>
    rw [List.forall_mem_cons] at h
    rw [List.flatMap_cons, List.length_append, h.1, ih h.2, sizeAll]

/-- The size of a term is the number of its parts. -/
theorem length_parts (t : Term) : t.parts.length = t.size := by
  induction t using Term.induct with
  | call f args ih | node op args ih =>
    simp only [parts_call, parts_node, List.length_cons, length_flatMap_parts ih, size,
      Nat.add_comm]
  | quant q vars body ih => rw [parts_quant, List.length_cons, ih, size, Nat.add_comm]
  | _ => rfl

/-- An argument is smaller than the term. -/
theorem size_lt_of_mem_args {a : Term} (h : a ∈ t.args) : a.size < t.size := by
  have hall : ∀ {ts : List Term}, a ∈ ts → a.size < 1 + sizeAll ts := by
    intro ts ha
    induction ts with
    | nil => simp at ha
    | cons b ts ih =>
      rw [sizeAll]
      rcases List.mem_cons.1 ha with rfl | ha
      · omega
      · have := ih ha
        omega
  cases t with
  | call f args | node op args => exact hall h
  | quant q vars body =>
    obtain rfl : a = body := by simpa [args] using h
    rw [size]
    omega
  | _ => simp [args] at h

/-- What is put in for a variable is no larger than the result. -/
theorem size_le_size_subst {x : Var} (h : x ∈ t.vars) : (τ x).size ≤ (t.subst τ).size := by
  induction t using Term.induct with
  | var v =>
    obtain rfl : x = v := by simpa using h
    exact Nat.le_refl _
  | call f args ih | node op args ih =>
    simp only [vars_call, vars_node, List.mem_flatMap] at h
    obtain ⟨a, ha, hx⟩ := h
    refine Nat.le_trans (ih a ha hx) (Nat.le_of_lt (size_lt_of_mem_args ?_))
    rw [args_subst rfl]
    exact List.mem_map_of_mem ha
  | quant q vars body ih =>
    refine Nat.le_trans (ih (by simpa using h)) (Nat.le_of_lt (size_lt_of_mem_args ?_))
    rw [args_subst rfl]
    exact List.mem_map_of_mem List.mem_cons_self
  | _ => simp [vars, var?] at h

/-- What is put in for a variable is smaller than the result, unless the term is the variable. -/
theorem size_lt_size_subst {x : Var} (h : x ∈ t.vars) (ht : t.isVar = false) :
    (τ x).size < (t.subst τ).size := by
  rw [vars_eq_flatMap_args ht, List.mem_flatMap] at h
  obtain ⟨a, ha, hx⟩ := h
  refine Nat.lt_of_le_of_lt (size_le_size_subst hx) (size_lt_of_mem_args ?_)
  rw [args_subst ht]
  exact List.mem_map_of_mem ha

/-! ### Tops that agree -/

/-- The terms have arguments, and the tops that stand over them are told to be the same: operators
or quantifiers with their variables that are equal, or function symbols with one number. -/
inductive SameTop : Term → Term → Prop where
  /-- Calls of symbols with one number. -/
  | call {f g : FunSym} (ss ts : List Term) (h : f.id = g.id) : SameTop (.call f ss) (.call g ts)
  /-- One operator. -/
  | node (op : Op) (ss ts : List Term) : SameTop (.node op ss) (.node op ts)
  /-- One quantifier over the same variables. -/
  | quant (q : Quantifier) (vars : List Var) (b c : Term) :
    SameTop (.quant q vars b) (.quant q vars c)

/-- What makes two terms equal whose tops agree makes their arguments equal. -/
theorem SameTop.map_args_eq (h : SameTop s t) (heq : s.subst τ = t.subst τ) :
    s.args.map (subst τ) = t.args.map (subst τ) := by
  cases h with
  | call | node | quant => simp_all [args]

/-- What makes the arguments of two terms equal whose tops agree makes the terms equal, if no two
function symbols at their tops share a number. -/
theorem SameTop.subst_eq (h : SameTop s t)
    (hhead : ∀ f g, s.head? = some f → t.head? = some g → f.id = g.id → f = g)
    (hargs : s.args.map (subst τ) = t.args.map (subst τ)) : s.subst τ = t.subst τ := by
  cases h with
  | call ss ts hid =>
    obtain rfl := hhead _ _ rfl rfl hid
    rw [subst_call, subst_call]
    exact congrArg _ hargs
  | node op ss ts =>
    rw [subst_node, subst_node]
    exact congrArg _ hargs
  | quant q vars b c =>
    rw [subst_quant, subst_quant]
    exact congrArg _ (List.head_eq_of_cons_eq hargs)

/-! ### The four cases -/

theorem unifyArgs_singleton
    (step : Term → Term → Substitution → Except UnifyError Substitution) (s t : Term)
    (σ : Substitution) : unifyArgs step [s] [t] σ = step s t σ := by
  have hlength : [s].length = [t].length := rfl
  rw [unifyArgs, if_pos hlength, unifyPairs]
  cases step s t σ <;> rfl

/-- **What unification does with two terms whose bindings have been followed.** -/
theorem unifyResolved_cases
    (step : Term → Term → Substitution → Except UnifyError Substitution) (s t : Term)
    (σ : Substitution) :
    (s = t ∧ unifyResolved step s t σ = .ok σ) ∨
    (s ≠ t ∧ ∃ v u, (s = .var v ∧ t = u ∨ t = .var v ∧ s = u) ∧
      unifyResolved step s t σ = bindVar v u σ) ∨
    (SameTop s t ∧ unifyResolved step s t σ = unifyArgs step s.args t.args σ) ∨
    ((∀ τ, s.subst τ ≠ t.subst τ) ∧ ∃ e, e ≠ .endless ∧ unifyResolved step s t σ = .error e) := by
  by_cases hst : s = t
  · exact Or.inl ⟨hst, by simp [unifyResolved, hst]⟩
  refine Or.inr ?_
  unfold unifyResolved
  rw [if_neg hst]
  split
  · rename_i v
    exact Or.inl ⟨hst, v, t, Or.inl ⟨rfl, rfl⟩, rfl⟩
  · rename_i v _
    exact Or.inl ⟨hst, v, s, Or.inr ⟨rfl, rfl⟩, rfl⟩
  · rename_i f ss g ts
    refine Or.inr ?_
    split
    · rename_i hid
      exact Or.inl ⟨.call ss ts hid, rfl⟩
    · rename_i hid
      refine Or.inr ⟨fun τ heq => hid ?_, _, by simp, rfl⟩
      simp only [subst_call, Term.call.injEq] at heq
      rw [heq.1]
  · rename_i op₁ ss op₂ ts
    refine Or.inr ?_
    split
    · rename_i hop
      subst hop
      exact Or.inl ⟨.node op₁ ss ts, rfl⟩
    · rename_i hop
      refine Or.inr ⟨fun τ heq => hop ?_, _, by simp, rfl⟩
      simp only [subst_node, Term.node.injEq] at heq
      exact heq.1
  · rename_i q us b r vs c
    refine Or.inr ?_
    split
    · rename_i hq
      obtain ⟨rfl, rfl⟩ := hq
      exact Or.inl ⟨.quant q us b c, (unifyArgs_singleton step b c σ).symm⟩
    · rename_i hq
      refine Or.inr ⟨fun τ heq => hq ?_, _, by simp, rfl⟩
      simp only [subst_quant, Term.quant.injEq] at heq
      exact ⟨heq.1, heq.2.1⟩
  · -- terms of two kinds, or two constants
    rename_i hvar hvar' hcall hnode hquant
    refine Or.inr (Or.inr ⟨fun τ heq => ?_, _, by simp, rfl⟩)
    cases s <;> cases t <;> first
      | exact hvar _ rfl
      | exact hvar' _ rfl
      | exact hcall _ _ _ _ rfl rfl
      | exact hnode _ _ _ _ rfl rfl
      | exact hquant _ _ _ _ _ _ rfl rfl
      | simp_all

end Term

end ClauseForm
