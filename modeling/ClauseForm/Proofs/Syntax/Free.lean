import ClauseForm.Proofs.Syntax.Parts
import ClauseForm.Term.Free

/-!
# Free occurrences

A variable occurs free in a term where no quantifier around it binds it
(`ClauseForm.Term.free`). `ClauseForm.Term.freeVars` lists the same variables
(`ClauseForm.Term.mem_freeVars`): it goes through the free occurrences from left
to right and keeps what is new (`ClauseForm.Term.collectFree_eq`). The universal
closure of a formula leaves none of them free
(`ClauseForm.Term.free_universalClosure`).

What does not occur free is bound by some quantifier (`ClauseForm.Term.boundVars`).
-/

namespace ClauseForm

namespace Term

/-! ### Free occurrences -/

mutual

/-- The free occurrences of variables in a term, from left to right. -/
def free : Term → List Var
  | .var x => [x]
  | .call _ args => freeAll args
  | .node _ args => freeAll args
  | .quant _ vars body => (free body).filter (· ∉ vars)
  | _ => []

/-- The free occurrences of variables in several terms, from left to right. -/
def freeAll : List Term → List Var
  | [] => []
  | t :: ts => free t ++ freeAll ts

end

theorem freeAll_eq_flatMap (ts : List Term) : freeAll ts = ts.flatMap free := by
  induction ts with
  | nil => rfl
  | cons t ts ih => exact congrArg (free t ++ ·) ih

@[simp]
theorem free_var (x : Var) : (Term.var x).free = [x] := rfl

@[simp]
theorem free_call (f : FunSym) (args : List Term) :
    (Term.call f args).free = args.flatMap free :=
  freeAll_eq_flatMap args

@[simp]
theorem free_node (op : Op) (args : List Term) : (Term.node op args).free = args.flatMap free :=
  freeAll_eq_flatMap args

@[simp]
theorem free_quant (q : Quantifier) (vars : List Var) (body : Term) :
    (Term.quant q vars body).free = body.free.filter (· ∉ vars) := rfl

/-- What occurs free occurs. -/
theorem mem_vars_of_mem_free {x : Var} {t : Term} (h : x ∈ t.free) : x ∈ t.vars := by
  induction t using Term.induct with
  | var y => simpa using h
  | call f args ih | node op args ih =>
    simp only [free_call, free_node, vars_call, vars_node, List.mem_flatMap] at h ⊢
    obtain ⟨a, ha, hx⟩ := h
    exact ⟨a, ha, ih a ha hx⟩
  | quant q vars body ih =>
    rw [free_quant, List.mem_filter] at h
    rw [vars_quant]
    exact ih h.1
  | _ => simp [free] at h

/-- Without quantifiers, every occurrence is free. -/
theorem free_eq_vars {t : Term} (h : t.QuantifierFree) : t.free = t.vars := by
  induction t using Term.induct with
  | call f args ih | node op args ih =>
    simp only [quantifierFree_call, quantifierFree_node, free_call, free_node, vars_call,
      vars_node] at h ⊢
    exact congrArg List.flatten (List.map_congr_left fun a ha => ih a ha (h a ha))
  | quant q vars body ih => exact absurd h not_quantifierFree_quant
  | var x => simp
  | _ => rfl

/-! ### Bound variables -/

/-- The variables that the quantifier at the top of a term binds, if one stands there. -/
def binds : Term → List Var
  | .quant _ vars _ => vars
  | _ => []

/-- The variables that the quantifiers in a term bind. -/
def boundVars (t : Term) : List Var :=
  t.parts.flatMap binds

section BoundVars

variable (f : FunSym) (op : Op) (q : Quantifier) (xs : List Var) (body : Term) (args : List Term)

@[simp]
theorem boundVars_call : (Term.call f args).boundVars = args.flatMap boundVars := by
  rw [boundVars, parts_call, List.flatMap_cons, List.flatMap_assoc]
  rfl

@[simp]
theorem boundVars_node : (Term.node op args).boundVars = args.flatMap boundVars := by
  rw [boundVars, parts_node, List.flatMap_cons, List.flatMap_assoc]
  rfl

@[simp]
theorem boundVars_quant : (Term.quant q xs body).boundVars = xs ++ body.boundVars := by
  rw [boundVars, parts_quant, List.flatMap_cons]
  rfl

end BoundVars

/-- A variable that occurs does so freely, or is bound by some quantifier. -/
theorem mem_free_or_mem_boundVars {x : Var} {t : Term} (h : x ∈ t.vars) :
    x ∈ t.free ∨ x ∈ t.boundVars := by
  induction t using Term.induct with
  | var y => exact Or.inl (by simpa using h)
  | call f args ih | node op args ih =>
    simp only [vars_call, vars_node, free_call, free_node, boundVars_call, boundVars_node,
      List.mem_flatMap] at h ⊢
    obtain ⟨a, ha, hx⟩ := h
    exact (ih a ha hx).imp (fun hfree => ⟨a, ha, hfree⟩) fun hbound => ⟨a, ha, hbound⟩
  | quant q vars body ih =>
    rw [vars_quant] at h
    rw [free_quant, boundVars_quant, List.mem_filter, List.mem_append]
    by_cases hx : x ∈ vars
    · exact Or.inr (Or.inl hx)
    · exact (ih h).imp (fun hfree => ⟨hfree, decide_eq_true hx⟩) Or.inr
  | _ => simp [vars, var?] at h

/-! ### The list of free variables -/

/-- A list with a variable appended, unless it is listed already. -/
def appendNew (seen : List Var) (x : Var) : List Var :=
  if x ∈ seen then seen else seen ++ [x]

theorem mem_foldl_appendNew {x : Var} {xs seen : List Var} :
    x ∈ xs.foldl appendNew seen ↔ x ∈ seen ∨ x ∈ xs := by
  induction xs generalizing seen with
  | nil => simp
  | cons y xs ih =>
    rw [List.foldl_cons, ih, List.mem_cons, appendNew]
    split
    · rename_i hy
      constructor
      · exact Or.imp_right Or.inr
      · rintro (h | rfl | h)
        · exact Or.inl h
        · exact Or.inl hy
        · exact Or.inr h
    · rw [List.mem_append, List.mem_singleton, or_assoc]

/-- Collecting goes through the free occurrences from left to right and keeps what is new. -/
theorem collectFree_eq (t : Term) (bound seen : List Var) :
    collectFree bound t seen = (t.free.filter (· ∉ bound)).foldl appendNew seen := by
  have lists : ∀ (ts : List Term) (bound seen : List Var),
      (∀ a ∈ ts, ∀ bound seen, collectFree bound a seen =
        (a.free.filter (· ∉ bound)).foldl appendNew seen) →
      collectFreeAll bound ts seen =
        ((ts.flatMap free).filter (· ∉ bound)).foldl appendNew seen := by
    intro ts bound seen h
    induction ts generalizing seen with
    | nil => rfl
    | cons a ts ih =>
      rw [collectFreeAll, h a List.mem_cons_self, ih _ fun b hb => h b (List.mem_cons_of_mem a hb),
        List.flatMap_cons, List.filter_append, List.foldl_append]
  induction t using Term.induct generalizing bound seen with
  | var x =>
    by_cases hb : x ∈ bound
    · simp [collectFree, hb]
    · simp [collectFree, hb, appendNew]
  | call f args ih | node op args ih =>
    simp only [free_call, free_node, collectFree]
    exact lists args bound seen ih
  | quant q vars body ih =>
    rw [collectFree, ih, free_quant, List.filter_filter]
    congr 2
    funext x
    simp
  | _ => rfl

/-- The listed variables are those that occur free. -/
theorem mem_freeVars {x : Var} {t : Term} : x ∈ t.freeVars ↔ x ∈ t.free := by
  rw [freeVars, collectFree_eq, mem_foldl_appendNew]
  simp

theorem free_eq_nil {t : Term} (h : t.freeVars = []) : t.free = [] :=
  List.eq_nil_iff_forall_not_mem.2 fun x hx => by simpa [h] using mem_freeVars.2 hx

/-- Whatever occurs in a term without free variables is bound by some quantifier. -/
theorem mem_boundVars_of_closed {x : Var} {t : Term} (h : t.freeVars = []) (hx : x ∈ t.vars) :
    x ∈ t.boundVars := by
  rcases mem_free_or_mem_boundVars hx with hfree | hbound
  · simp [free_eq_nil h] at hfree
  · exact hbound

/-- No variable is listed twice. -/
theorem nodup_freeVars (t : Term) : t.freeVars.Nodup := by
  have hfold : ∀ (xs seen : List Var), seen.Nodup → (xs.foldl appendNew seen).Nodup := by
    intro xs
    induction xs with
    | nil => exact fun _ h => h
    | cons x xs ih =>
      refine fun seen h => ih _ ?_
      rw [appendNew]
      split
      · exact h
      · rename_i hx
        refine List.nodup_append.2 ⟨h, by simp, ?_⟩
        rintro y hy z hz rfl
        exact hx (List.mem_singleton.1 hz ▸ hy)
  rw [freeVars, collectFree_eq]
  exact hfold _ [] List.nodup_nil

/-- A term without free variables is its own closure. -/
theorem universalClosure_eq_self {t : Term} (h : t.freeVars = []) : t.universalClosure = t := by
  rw [universalClosure, h]

/-- A closed formula has no free variables. -/
theorem free_universalClosure (t : Term) : t.universalClosure.free = [] := by
  unfold universalClosure
  split
  · rename_i h
    exact free_eq_nil h
  · refine List.eq_nil_iff_forall_not_mem.2 fun x hx => ?_
    rw [free_quant, List.mem_filter] at hx
    exact of_decide_eq_true hx.2 (mem_freeVars.2 hx.1)

end Term

end ClauseForm
