import ClauseForm.Clause
import ClauseForm.Proofs.Syntax.Replacement
import ClauseForm.Proofs.Syntax.Symbols

/-!
# Exchanging the symbols of clauses

Clauses have no binders, so that what becomes of them when symbols are exchanged
(`ClauseForm.Clause.mapSymbols`) depends only on what becomes of the symbols that occur in
them (`ClauseForm.Term.mapSymbols_congr`). If nothing but variables is exchanged, that is a
replacement of variables (`ClauseForm.Term.subst_eq_mapSymbols`).
-/

namespace ClauseForm

namespace Term

variable {v v' : Var → Var} {g g' : FunSym → FunSym} {t : Term}

/-- Without binders, only the symbols that occur matter. -/
theorem mapSymbols_congr (hq : t.QuantifierFree) (hv : ∀ x ∈ t.vars, v x = v' x)
    (hg : ∀ f ∈ t.funs, g f = g' f) : t.mapSymbols v g = t.mapSymbols v' g' := by
  induction t using Term.induct with
  | call f args ih =>
    rw [quantifierFree_call] at hq
    rw [vars_call, List.forall_mem_flatMap] at hv
    rw [funs_call, List.forall_mem_cons, List.forall_mem_flatMap] at hg
    rw [mapSymbols_call, mapSymbols_call, hg.1,
      List.map_congr_left fun a ha => ih a ha (hq a ha) (hv a ha) (hg.2 a ha)]
  | node op args ih =>
    rw [quantifierFree_node] at hq
    rw [vars_node, List.forall_mem_flatMap] at hv
    rw [funs_node, List.forall_mem_flatMap] at hg
    rw [mapSymbols_node, mapSymbols_node,
      List.map_congr_left fun a ha => ih a ha (hq a ha) (hv a ha) (hg a ha)]
  | quant q xs body ih => exact absurd hq not_quantifierFree_quant
  | var x => simpa using hv
  | const f => simpa using hg
  | _ => rfl

/-- Replacing variables by variables is an exchange. -/
theorem subst_eq_mapSymbols {τ : Var → Term} (hq : t.QuantifierFree)
    (h : ∀ x ∈ t.vars, τ x = .var (v x)) : t.subst τ = t.mapSymbols v id := by
  induction t using Term.induct with
  | call f args ih | node op args ih =>
    simp only [quantifierFree_call, quantifierFree_node, vars_call, vars_node,
      List.forall_mem_flatMap] at hq h
    simp only [subst_call, subst_node, mapSymbols_call, mapSymbols_node, id,
      List.map_congr_left fun a ha => ih a ha (hq a ha) (h a ha)]
  | quant q xs body ih => exact absurd hq not_quantifierFree_quant
  | var x => simpa using h
  | _ => simp

/-- Without binders, the variables among the symbols are those that occur. -/
theorem mem_vars_of_mem_symbols {i : Nat} (hq : t.QuantifierFree) (h : .var i ∈ t.symbols) :
    ⟨i⟩ ∈ t.vars := by
  rw [symbols, List.mem_flatMap] at h
  obtain ⟨p, hp, htop⟩ := h
  rw [vars, List.mem_filterMap]
  refine ⟨p, hp, ?_⟩
  have hquant := hq p hp
  cases p <;> simp_all [topSymbols, var?, isQuant]

end Term

/-- The clause with every variable and every function symbol exchanged for another one. -/
def Clause.mapSymbols (v : Var → Var) (g : FunSym → FunSym) (c : Clause) : Clause :=
  ⟨c.literals.map (Term.mapSymbols v g)⟩

namespace Clause

theorem toTerm_mapSymbols (v : Var → Var) (g : FunSym → FunSym) (c : Clause) :
    (c.mapSymbols v g).toTerm = c.toTerm.mapSymbols v g :=
  (Term.mapSymbols_node ..).symm

theorem mapSymbols_mapSymbols (v v' : Var → Var) (g g' : FunSym → FunSym) (c : Clause) :
    (c.mapSymbols v g).mapSymbols v' g' = c.mapSymbols (v' ∘ v) (g' ∘ g) := by
  rw [mapSymbols, mapSymbols, mapSymbols, List.map_map]
  exact congrArg Clause.mk (List.map_congr_left fun l _ => l.mapSymbols_mapSymbols v v' g g')

@[simp]
theorem mapSymbols_id (c : Clause) : c.mapSymbols id id = c := by
  rw [mapSymbols, List.map_congr_left fun l _ => l.mapSymbols_id, List.map_id']

end Clause

theorem Cnf.toTerm_mapSymbols (v : Var → Var) (g : FunSym → FunSym) (cs : List Clause) :
    Cnf.toTerm ⟨cs.map (Clause.mapSymbols v g)⟩ = (Cnf.toTerm ⟨cs⟩).mapSymbols v g := by
  rw [toTerm, toTerm, Term.conj, Term.conj, Term.mapSymbols_node, List.map_map, List.map_map]
  exact congrArg _ (List.map_congr_left fun c _ => c.toTerm_mapSymbols v g)

end ClauseForm
