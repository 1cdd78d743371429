import ClauseForm.Proofs.Conversion.Flattening
import ClauseForm.Proofs.Syntax.Symbols

/-!
# Other numbers for the symbols

A relabeling (`ClauseForm.Relabeling`) gives the variables and the function symbols other
numbers, one to one. Nothing that is looked at in a term is lost by that: what is read
off a relabeled term is what is read off the term, relabeled.
-/

namespace ClauseForm

/-- Other variables and function symbols in the place of the old ones, different ones in the place
of different ones. -/
structure Relabeling where
  /-- What takes the place of a variable. -/
  var : Var → Var
  /-- What takes the place of a function symbol. -/
  fn : FunSym → FunSym
  var_injective : Function.Injective var
  fn_injective : Function.Injective fn

/-- Every symbol in its own place. -/
def Relabeling.refl : Relabeling :=
  ⟨id, id, fun _ _ h => h, fun _ _ h => h⟩

namespace Term

variable (ρ : Relabeling)

/-- The term with other symbols in the place of its own, bound variables included. -/
def relabel (t : Term) : Term :=
  t.mapSymbols ρ.var ρ.fn

@[simp]
theorem relabel_var (x : Var) : (Term.var x).relabel ρ = .var (ρ.var x) :=
  mapSymbols_var ..

@[simp]
theorem relabel_const (f : FunSym) : (Term.const f).relabel ρ = .const (ρ.fn f) :=
  mapSymbols_const ..

@[simp]
theorem relabel_call (f : FunSym) (args : List Term) :
    (Term.call f args).relabel ρ = .call (ρ.fn f) (args.map (relabel ρ)) :=
  mapSymbols_call ..

@[simp]
theorem relabel_node (op : Op) (args : List Term) :
    (Term.node op args).relabel ρ = .node op (args.map (relabel ρ)) :=
  mapSymbols_node ..

theorem relabel_of_isConstant {t : Term} (h : t.isConstant = true) : t.relabel ρ = t := by
  cases t <;> first | rfl | simp [isConstant, isNumeric] at h

@[simp]
theorem relabel_appliedTo (f : FunSym) (args : List Term) :
    (f.appliedTo args).relabel ρ = (ρ.fn f).appliedTo (args.map (relabel ρ)) := by
  cases args <;> simp [FunSym.appliedTo]

@[simp]
theorem relabel_refl (t : Term) : t.relabel .refl = t :=
  mapSymbols_id t

/-- Relabeling can be undone. -/
theorem relabel_injective : Function.Injective (relabel ρ) := by
  refine Function.LeftInverse.injective
    (g := mapSymbols (Function.invFun ρ.var) (Function.invFun ρ.fn)) fun t => ?_
  rw [relabel, mapSymbols_mapSymbols, Function.invFun_comp ρ.var_injective,
    Function.invFun_comp ρ.fn_injective, mapSymbols_id]

/-! ### What stands at the top -/

@[simp]
theorem op?_mapSymbols (v : Var → Var) (g : FunSym → FunSym) (t : Term) :
    (t.mapSymbols v g).op? = t.op? := by
  cases t <;> simp [op?]

@[simp]
theorem op?_relabel (t : Term) : (t.relabel ρ).op? = t.op? :=
  op?_mapSymbols ..

@[simp]
theorem isOp_relabel (t : Term) (op : Op) : (t.relabel ρ).isOp op = t.isOp op := by
  rw [isOp, isOp, op?_relabel]

theorem stripNegations_relabel (t : Term) :
    (t.relabel ρ).stripNegations = t.stripNegations.map (relabel ρ) := by
  induction t using Term.induct with
  | node op args ih =>
    by_cases hop : op = .not
    · subst hop
      cases args with
      | nil => simp [stripNegations, Except.map]
      | cons a args => simpa [stripNegations] using ih a List.mem_cons_self
    · have hstop : ∀ args : List Term,
          (Term.node op args).stripNegations = .ok (.node op args) := by
        intro args
        rw [stripNegations] <;> simp_all
      rw [relabel_node, hstop, hstop, Except.map, relabel_node]
  | _ => simp [relabel, stripNegations, Except.map]

/-! ### Free variables -/

theorem free_relabel (t : Term) : (t.relabel ρ).free = t.free.map ρ.var := by
  induction t using Term.induct with
  | call f args ih | node op args ih =>
    simp only [relabel_call, relabel_node, free_call, free_node, List.flatMap_map,
      List.map_flatMap]
    exact congrArg List.flatten (List.map_congr_left ih)
  | quant q vars body ih =>
    have hmem : ∀ x, ρ.var x ∈ vars.map ρ.var ↔ x ∈ vars := fun x =>
      List.mem_map_of_injective ρ.var_injective
    rw [relabel, mapSymbols_quant, free_quant, free_quant]
    change List.filter _ (body.relabel ρ).free = _
    rw [ih, List.filter_map]
    refine congrArg _ (List.filter_congr fun x _ => ?_)
    rw [Function.comp_apply, decide_eq_decide, hmem]
  | _ => simp [relabel, free]

theorem foldl_appendNew_map (xs seen : List Var) :
    (xs.map ρ.var).foldl appendNew (seen.map ρ.var) = (xs.foldl appendNew seen).map ρ.var := by
  induction xs generalizing seen with
  | nil => rfl
  | cons x xs ih =>
    have hstep : appendNew (seen.map ρ.var) (ρ.var x) = (appendNew seen x).map ρ.var := by
      have hmem := List.mem_map_of_injective ρ.var_injective (a := x) (l := seen)
      by_cases hx : x ∈ seen <;> simp [appendNew, hmem, hx]
    rw [List.map_cons, List.foldl_cons, hstep, ih, List.foldl_cons]

/-- The free variables keep their order. -/
theorem freeVars_relabel (t : Term) : (t.relabel ρ).freeVars = t.freeVars.map ρ.var := by
  have hlist : ∀ t : Term, t.freeVars = t.free.foldl appendNew [] := by
    intro t
    rw [freeVars, collectFree_eq]
    simp
  rw [hlist, hlist, free_relabel]
  exact foldl_appendNew_map ρ t.free []

/-! ### What stands below an operator -/

/-- Exchanging symbols keeps what stands below what. -/
theorem leaves_mapSymbols (v : Var → Var) (g : FunSym → FunSym) (op : Op) (t : Term) :
    (t.mapSymbols v g).leaves op = (t.leaves op).map (mapSymbols v g) := by
  have hsingle : ∀ {t : Term}, t.isOp op = false →
      (t.mapSymbols v g).leaves op = (t.leaves op).map (mapSymbols v g) := by
    intro t hop
    have hop' : (t.mapSymbols v g).isOp op = false := by rwa [isOp, op?_mapSymbols]
    rw [leaves_of_isOp_false hop, leaves_of_isOp_false hop']
    rfl
  induction t using Term.induct with
  | node o args ih =>
    by_cases ho : o = op
    · subst ho
      rw [mapSymbols_node, leaves_node_self, leaves_node_self, List.flatMap_map, List.map_flatMap]
      exact congrArg List.flatten (List.map_congr_left ih)
    · exact hsingle (by simpa [isOp, op?] using ho)
  | _ => exact hsingle rfl

theorem leaves_relabel (op : Op) (t : Term) :
    (t.relabel ρ).leaves op = (t.leaves op).map (relabel ρ) :=
  leaves_mapSymbols ..

/-- Distributing only puts conjunctions and disjunctions on top of what was there. -/
theorem forall_parts_distribute {P : Term → Prop} {args : List Term} (i : Fin args.length)
    (hjunction : ∀ op ts, op = .and ∨ op = .or → P (.node op ts))
    (h : ∀ a ∈ args, ∀ p ∈ a.parts, P p) : ∀ p ∈ (distribute args i).parts, P p := by
  have hmember : ∀ m ∈ flatten .and args[i], ∀ p ∈ m.parts, P p := by
    intro m hm p hp
    rw [flatten_eq_leaves] at hm
    exact h _ (List.getElem_mem i.isLt) p (mem_parts_trans hp (mem_parts_of_mem_leaves hm))
  rw [distribute, conj, parts_node, List.forall_mem_cons, List.forall_mem_flatMap,
    List.forall_mem_map]
  refine ⟨hjunction _ _ (Or.inl rfl), fun m hm => ?_⟩
  rw [disj, parts_node, List.forall_mem_cons, List.forall_mem_flatMap]
  refine ⟨hjunction _ _ (Or.inr rfl), fun a ha => ?_⟩
  rcases List.mem_or_eq_of_mem_set ha with ha | rfl
  · exact h a ha
  · exact hmember a hm

theorem distribute_relabel (args : List Term) (i : Fin args.length) :
    (distribute args i).relabel ρ =
      distribute (args.map (relabel ρ)) (i.cast (List.length_map _).symm) := by
  have hget : (args.map (relabel ρ))[(i.cast (List.length_map (relabel ρ)).symm)] =
      args[i].relabel ρ := by simp
  rw [distribute, distribute, hget, flatten_eq_leaves, flatten_eq_leaves, leaves_relabel]
  simp [conj, disj, List.map_set, Function.comp_def]

/-! ### What is kept -/

theorem keepsArities_relabel {t : Term} : (t.relabel ρ).KeepsArities ↔ t.KeepsArities :=
  keepsArities_mapSymbols

/-! ### Literals -/

theorem literalValue_relabel (t : Term) : (t.relabel ρ).literalValue = t.literalValue := by
  induction t using Term.induct with
  | node op args ih =>
    by_cases hop : op = .not
    · subst hop
      cases args with
      | nil => rfl
      | cons a args =>
        rw [relabel_node, List.map_cons, literalValue, literalValue, ih a List.mem_cons_self]
    · rw [relabel_node, literalValue, literalValue] <;> simp_all
  | _ => simp [relabel, literalValue]

theorem complement_relabel (t : Term) :
    (t.relabel ρ).complement = t.complement.map (relabel ρ) := by
  cases t with
  | node op args =>
    by_cases hop : op = .not
    · subst hop
      cases args <;> simp [complement, Except.map]
    · rw [relabel_node, complement, complement] <;> simp_all [Except.map, neg]
  | _ => simp [relabel, complement, Except.map, neg]

/-- A clause is seen to be true whatever the numbers of its symbols. -/
theorem anyTrueOrComplementary_relabel (ls : List Term) :
    anyTrueOrComplementary (ls.map (relabel ρ)) = anyTrueOrComplementary ls := by
  induction ls with
  | nil => rfl
  | cons l ls ih =>
    rw [List.map_cons, anyTrueOrComplementary, anyTrueOrComplementary, literalValue_relabel,
      complement_relabel, ih]
    cases l.complement with
    | error fault => rfl
    | ok c =>
      have hmem : c.relabel ρ ∈ ls.map (relabel ρ) ↔ c ∈ ls :=
        List.mem_map_of_injective (relabel_injective ρ)
      cases l.literalValue with
      | error fault => rfl
      | ok value =>
        change
          (if value = some true then _ else if c.relabel ρ ∈ ls.map (relabel ρ) then _ else _) =
            (if value = some true then _ else if c ∈ ls then _ else _)
        simp only [hmem]

theorem dropFalse_relabel (ls : List Term) :
    dropFalse (ls.map (relabel ρ)) = (dropFalse ls).map (List.map (relabel ρ)) := by
  induction ls with
  | nil => rfl
  | cons l ls ih =>
    rw [List.map_cons, dropFalse, dropFalse, literalValue_relabel, ih]
    cases l.literalValue with
    | error fault => rfl
    | ok value =>
      cases dropFalse ls with
      | error fault => rfl
      | ok rest =>
        change (Except.ok _ : Except Fault _) = Except.ok _
        split <;> rfl

end Term

/-- The clause with other symbols in the place of its own. -/
def Clause.relabel (ρ : Relabeling) (c : Clause) : Clause :=
  ⟨c.literals.map (Term.relabel ρ)⟩

namespace Clause

theorem toTerm_relabel (ρ : Relabeling) (c : Clause) : (c.relabel ρ).toTerm = c.toTerm.relabel ρ :=
  (Term.relabel_node ..).symm

@[simp]
theorem relabel_refl (c : Clause) : c.relabel .refl = c := by
  have hid : Term.relabel .refl = id := funext Term.relabel_refl
  rw [relabel, hid, List.map_id]

theorem isTautology_relabel (ρ : Relabeling) (c : Clause) :
    (c.relabel ρ).isTautology = c.isTautology :=
  Term.anyTrueOrComplementary_relabel ρ c.literals

theorem withoutFalse_relabel (ρ : Relabeling) (c : Clause) :
    (c.relabel ρ).withoutFalse = c.withoutFalse.map (relabel ρ) := by
  rw [withoutFalse, withoutFalse, relabel, Term.dropFalse_relabel]
  cases Term.dropFalse c.literals <;> rfl

end Clause

end ClauseForm
