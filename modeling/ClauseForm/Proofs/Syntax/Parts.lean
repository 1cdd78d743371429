import ClauseForm.Term.Basic

/-!
# The parts of a term

A term and everything that it is built from, each as often as it occurs
(`ClauseForm.Term.parts`). What a term mentions is read off its parts: the
variables (`ClauseForm.Term.vars`), the function symbols
(`ClauseForm.Term.funs`), and whether there is a quantifier
(`ClauseForm.Term.QuantifierFree`).

Whether every operator has as many arguments as it takes is a matter of the parts
as well (`ClauseForm.Term.KeepsArities`).

The variables that a quantifier lists are no parts of it: only its body is. So
`ClauseForm.Term.vars` holds the occurrences of variables outside these lists,
free and bound ones alike.
-/

namespace ClauseForm

namespace Term

mutual

/-- A term and all its parts, each as often as it occurs, the whole before what it is made of. -/
def parts : Term → List Term
  | .call f args => .call f args :: partsAll args
  | .node op args => .node op args :: partsAll args
  | .quant q vars body => .quant q vars body :: parts body
  | t => [t]

/-- Several terms and all their parts, from left to right. -/
def partsAll : List Term → List Term
  | [] => []
  | t :: ts => parts t ++ partsAll ts

end

theorem partsAll_eq_flatMap (ts : List Term) : partsAll ts = ts.flatMap parts := by
  induction ts with
  | nil => rfl
  | cons t ts ih => exact congrArg (parts t ++ ·) ih

@[simp]
theorem parts_call (f : FunSym) (args : List Term) :
    (Term.call f args).parts = .call f args :: args.flatMap parts :=
  congrArg (Term.call f args :: ·) (partsAll_eq_flatMap args)

@[simp]
theorem parts_node (op : Op) (args : List Term) :
    (Term.node op args).parts = .node op args :: args.flatMap parts :=
  congrArg (Term.node op args :: ·) (partsAll_eq_flatMap args)

@[simp]
theorem parts_quant (q : Quantifier) (vars : List Var) (body : Term) :
    (Term.quant q vars body).parts = .quant q vars body :: body.parts := rfl

@[simp]
theorem parts_bool (b : Bool) : (Term.bool b).parts = [.bool b] := rfl

@[simp]
theorem parts_object (name : String) : (Term.object name).parts = [.object name] := rfl

@[simp]
theorem parts_integer (n : Int) : (Term.integer n).parts = [.integer n] := rfl

@[simp]
theorem parts_rational (x : Rat) : (Term.rational x).parts = [.rational x] := rfl

@[simp]
theorem parts_real (x : Rat) : (Term.real x).parts = [.real x] := rfl

@[simp]
theorem parts_const (f : FunSym) : (Term.const f).parts = [.const f] := rfl

@[simp]
theorem parts_var (v : Var) : (Term.var v).parts = [.var v] := rfl

/-- A term is one of its own parts. -/
theorem self_mem_parts (t : Term) : t ∈ t.parts := by
  cases t <;> simp

/-- The parts of a part are parts of the whole. -/
theorem mem_parts_trans {r s t : Term} (hr : r ∈ s.parts) (hs : s ∈ t.parts) : r ∈ t.parts := by
  induction t using Term.induct with
  | call f args ih | node op args ih =>
    simp only [parts_call, parts_node, List.mem_cons, List.mem_flatMap] at hs ⊢
    rcases hs with rfl | ⟨a, ha, hs⟩
    · simpa using hr
    · exact Or.inr ⟨a, ha, ih a ha hs⟩
  | quant q vars body ih =>
    rw [parts_quant, List.mem_cons] at hs ⊢
    rcases hs with rfl | hs
    · simpa using hr
    · exact Or.inr (ih hs)
  | _ =>
    obtain rfl : s = _ := by simpa using hs
    exact hr

/-- The arguments of a term are parts of it. -/
theorem mem_parts_of_mem_args {a t : Term} (h : a ∈ t.args) : a ∈ t.parts := by
  cases t with
  | call f args | node op args =>
    simp only [parts_call, parts_node, List.mem_cons, List.mem_flatMap]
    exact Or.inr ⟨a, h, a.self_mem_parts⟩
  | quant q vars body =>
    obtain rfl : a = body := by simpa [args] using h
    rw [parts_quant]
    exact List.mem_cons_of_mem _ a.self_mem_parts
  | _ => simp [args] at h

/-! ### The variables and function symbols that occur in a term -/

/-- The function symbol that a term is, or that is called at its top. -/
def head? : Term → Option FunSym
  | .const f | .call f _ => some f
  | _ => none

/-- The occurrences of variables in a term. -/
def vars (t : Term) : List Var :=
  t.parts.filterMap var?

/-- The occurrences of function symbols in a term. -/
def funs (t : Term) : List FunSym :=
  t.parts.filterMap head?

/-- What is mentioned in a part is mentioned in the whole. -/
theorem mem_funs_of_mem_parts {f : FunSym} {s t : Term} (hf : f ∈ s.funs) (hs : s ∈ t.parts) :
    f ∈ t.funs := by
  rw [funs, List.mem_filterMap] at hf ⊢
  obtain ⟨p, hp, hf⟩ := hf
  exact ⟨p, mem_parts_trans hp hs, hf⟩

section Occurrences

variable (f : FunSym) (op : Op) (q : Quantifier) (xs : List Var) (body : Term) (args : List Term)

@[simp]
theorem vars_call : (Term.call f args).vars = args.flatMap vars := by
  rw [vars, parts_call, List.filterMap_cons_none rfl, List.filterMap_flatMap]
  rfl

@[simp]
theorem vars_node : (Term.node op args).vars = args.flatMap vars := by
  rw [vars, parts_node, List.filterMap_cons_none rfl, List.filterMap_flatMap]
  rfl

@[simp]
theorem vars_quant : (Term.quant q xs body).vars = body.vars := by
  rw [vars, parts_quant, List.filterMap_cons_none rfl]
  rfl

@[simp]
theorem vars_var (v : Var) : (Term.var v).vars = [v] := rfl

@[simp]
theorem funs_call : (Term.call f args).funs = f :: args.flatMap funs := by
  have h : head? (.call f args) = some f := rfl
  rw [funs, parts_call, List.filterMap_cons_some h, List.filterMap_flatMap]
  rfl

@[simp]
theorem funs_node : (Term.node op args).funs = args.flatMap funs := by
  rw [funs, parts_node, List.filterMap_cons_none rfl, List.filterMap_flatMap]
  rfl

@[simp]
theorem funs_quant : (Term.quant q xs body).funs = body.funs := by
  rw [funs, parts_quant, List.filterMap_cons_none rfl]
  rfl

@[simp]
theorem funs_const : (Term.const f).funs = [f] := rfl

end Occurrences

/-! ### Terms without quantifiers -/

/-- Whether a quantifier stands at the top of a term. -/
def isQuant : Term → Bool
  | .quant _ _ _ => true
  | _ => false

/-- No quantifier stands in the term. -/
def QuantifierFree (t : Term) : Prop :=
  ∀ p ∈ t.parts, p.isQuant = false

instance (t : Term) : Decidable t.QuantifierFree :=
  inferInstanceAs (Decidable (∀ p ∈ t.parts, p.isQuant = false))

@[simp]
theorem quantifierFree_call {f : FunSym} {args : List Term} :
    (Term.call f args).QuantifierFree ↔ ∀ a ∈ args, a.QuantifierFree := by
  simp only [QuantifierFree, parts_call, List.forall_mem_cons, List.forall_mem_flatMap]
  exact and_iff_right rfl

@[simp]
theorem quantifierFree_node {op : Op} {args : List Term} :
    (Term.node op args).QuantifierFree ↔ ∀ a ∈ args, a.QuantifierFree := by
  simp only [QuantifierFree, parts_node, List.forall_mem_cons, List.forall_mem_flatMap]
  exact and_iff_right rfl

@[simp]
theorem not_quantifierFree_quant {q : Quantifier} {vars : List Var} {body : Term} :
    ¬(Term.quant q vars body).QuantifierFree := by
  intro h
  simpa [isQuant] using h _ (self_mem_parts _)

/-! ### Argument counts -/

/-- Whether the operator at the top of a term, if one stands there, has as many arguments as it
takes. -/
def keepsArity : Term → Bool
  | .node op args => op.takes args.length
  | _ => true

/-- Every operator in the term has as many arguments as it takes. -/
def KeepsArities (t : Term) : Prop :=
  ∀ p ∈ t.parts, p.keepsArity = true

theorem keepsArities_call {f : FunSym} {args : List Term} :
    (Term.call f args).KeepsArities ↔ ∀ a ∈ args, a.KeepsArities := by
  simp only [KeepsArities, parts_call, List.forall_mem_cons, List.forall_mem_flatMap]
  exact and_iff_right rfl

theorem keepsArities_node {op : Op} {args : List Term} :
    (Term.node op args).KeepsArities ↔
      op.takes args.length = true ∧ ∀ a ∈ args, a.KeepsArities := by
  simp only [KeepsArities, parts_node, List.forall_mem_cons, List.forall_mem_flatMap]
  rfl

theorem keepsArities_quant {q : Quantifier} {vars : List Var} {body : Term} :
    (Term.quant q vars body).KeepsArities ↔ body.KeepsArities := by
  simp only [KeepsArities, parts_quant, List.forall_mem_cons]
  exact and_iff_right rfl

end Term

namespace Op

variable {op : Op} {args : List Term}

/-- What a unary operator stands over. -/
theorem exists_of_takes_one (h : op.arity = some 1) (ht : op.takes args.length = true) :
    ∃ t, args = [t] := by
  rw [takes, h] at ht
  exact List.length_eq_one_iff.1 (of_decide_eq_true ht).symm

/-- What a binary operator stands over. -/
theorem exists_of_takes_two (h : op.arity = some 2) (ht : op.takes args.length = true) :
    ∃ s t, args = [s, t] := by
  rw [takes, h] at ht
  have hlength : args.length = 2 := (of_decide_eq_true ht).symm
  match args, hlength with
  | [s, t], _ => exact ⟨s, t, rfl⟩

end Op

end ClauseForm
