import ClauseForm.Proofs.Syntax.Free
import ClauseForm.Term.WellFormed

/-!
# What is well-formed

Keeping the argument counts and being well-formed are matters of the parts of a term
(`ClauseForm.Term.Partwise`). Well-formed terms keep the argument counts
(`ClauseForm.Term.WellFormed.keepsArities`), and where there are no quantifiers, nothing else is
asked of them (`ClauseForm.Term.KeepsArities.wellFormed`). The universal closure of a well-formed
formula is well-formed: it binds something or is the formula itself.
-/

namespace ClauseForm

namespace Term

variable {t : Term}

/-! ### Matters of the parts -/

/-- A term is as `P` says if its operators have as many arguments as they take, the function symbols
that it calls are as `Q` says, what its quantifiers bind is as `R` says, and its parts are as `P`
says. Truth values always are. -/
structure Partwise (P : Term → Prop) (Q : FunSym → Prop) (R : List Var → Prop) : Prop where
  bool : ∀ b, P (.bool b)
  call : ∀ f args, P (.call f args) ↔ Q f ∧ ∀ a ∈ args, P a
  node : ∀ op args, P (.node op args) ↔ op.takes args.length = true ∧ ∀ a ∈ args, P a
  quant : ∀ q vars body, P (.quant q vars body) ↔ R vars ∧ P body

theorem partwise_wellFormed : Partwise WellFormed (fun _ => True) (· ≠ []) :=
  ⟨fun _ => rfl, fun _ _ => by simp [wellFormed_call],
    fun _ _ => wellFormed_node, fun _ _ _ => wellFormed_quant⟩

theorem partwise_keepsArities : Partwise KeepsArities (fun _ => True) (fun _ => True) :=
  ⟨fun _ => by simp [KeepsArities, keepsArity], fun _ _ => by simp [keepsArities_call],
    fun _ _ => keepsArities_node, fun _ _ _ => by simp [keepsArities_quant]⟩

/-- Where every operator has as many arguments as it takes, the argument counts are kept. -/
theorem Partwise.keepsArities {P : Term → Prop} {Q : FunSym → Prop} {R : List Var → Prop}
    (hP : Partwise P Q R) (h : P t) : t.KeepsArities := by
  induction t using Term.induct with
  | call f args ih =>
    exact keepsArities_call.2 fun a ha => ih a ha (((hP.call f args).1 h).2 a ha)
  | node op args ih =>
    obtain ⟨htakes, hargs⟩ := (hP.node op args).1 h
    exact keepsArities_node.2 ⟨htakes, fun a ha => ih a ha (hargs a ha)⟩
  | quant q vars body ih => exact keepsArities_quant.2 (ih ((hP.quant q vars body).1 h).2)
  | _ => simp [KeepsArities, keepsArity]

/-! ### Well-formed terms -/

/-- Well-formed terms keep the argument counts. -/
theorem WellFormed.keepsArities (h : t.WellFormed) : t.KeepsArities :=
  partwise_wellFormed.keepsArities h

/-- Without quantifiers, the argument counts are all that is asked for. -/
theorem KeepsArities.wellFormed (h : t.KeepsArities) (hq : t.QuantifierFree) : t.WellFormed := by
  induction t using Term.induct with
  | call f args ih =>
    exact wellFormed_call.2 fun a ha =>
      ih a ha (keepsArities_call.1 h a ha) (quantifierFree_call.1 hq a ha)
  | node op args ih =>
    obtain ⟨htakes, hargs⟩ := keepsArities_node.1 h
    exact wellFormed_node.2 ⟨htakes, fun a ha =>
      ih a ha (hargs a ha) (quantifierFree_node.1 hq a ha)⟩
  | quant q vars body ih => exact absurd hq not_quantifierFree_quant
  | _ => rfl

/-- The universal closure of a well-formed formula is well-formed. -/
theorem wellFormed_universalClosure (h : t.WellFormed) : t.universalClosure.WellFormed := by
  unfold universalClosure
  split
  · exact h
  · rename_i hvars
    exact wellFormed_quant.2 ⟨hvars, h⟩

end Term

end ClauseForm
