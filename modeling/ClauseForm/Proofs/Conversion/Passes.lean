import ClauseForm.Proofs.Conversion.Clearing
import ClauseForm.Proofs.Conversion.Matrix
import ClauseForm.Proofs.Conversion.Stages

/-!
# One pass over a formula

The formulas that go their own way during a conversion are of two kinds: definitions of
the names of sides, and definitions of the names of conjunctions. Here they may go
different ways (`ClauseForm.ConvertM.convertVia`), so that what becomes of each kind can be
told apart.

Whatever the ways, the definition of a conjunction's name takes neither of them
(`ClauseForm.ConvertM.ensures_convertVia_conjunction`), and that of the name of a side made
of literals only takes the way of conjunctions
(`ClauseForm.ConvertM.ensures_convertVia_side`).
-/

namespace ClauseForm

namespace ConvertM

open Conversion Term

variable {counted : Bool} {p : Term → Prop} {side conj : Term → ConvertM Unit}
variable {s : Conversion} {t atom : Term} {budget : Nat}

/-! ### Two ways for definitions -/

/-- What is done with the matrix of a formula. The definitions of sides' names go one way, and those
of conjunctions' names another. -/
def clausifyVia (side conj : Term → ConvertM Unit) (m : Term) : ConvertM Unit := do
  let m ← expandIffs side m
  let conjunctive ← raiseAnds conj m
  report (.distributed conjunctive)
  gatherClauses conjunctive

/-- Adds the clauses of a closed formula to those gathered. The definitions of sides' names go one
way, and those of conjunctions' names another. -/
def convertVia (side conj : Term → ConvertM Unit) (t : Term) : ConvertM Unit := do
  let normal ← ofExcept (t.lowerNot true)
  report (.normalized normal)
  let m ← matrix normal .empty
  clausifyVia side conj m

/-- A conversion lets both kinds of definitions go the same way. -/
theorem convertBy_eq_convertVia (define : Term → ConvertM Unit) :
    convertBy define = convertVia define define :=
  rfl

theorem convertWithin_succ (limit : Nat) (t : Term) :
    convertWithin (limit + 1) t = convertVia (convertWithin limit) (convertWithin limit) t := by
  rw [convertWithin, convertBy_eq_convertVia]

/-- The conversion of a term is that of what is left when its quantifiers are taken away. -/
theorem ensures_convertVia {P : Unit → Conversion → Prop} (counted : Bool) (hk : t.KeepsArities)
    (hs : s.journal = none)
    (h : ∀ {m : Term} {s₁ : Conversion}, Cleared (t.nnf true) m → Spends counted 0 0 s s₁ →
      Ensures (clausifyVia side conj m) s₁ P) : Ensures (convertVia side conj t) s P := by
  unfold convertVia
  refine .bind_ofExcept (lowerNot_eq_nnf hk true) ?_
  refine .bind_report _ hs ?_
  refine (ensures_matrix_cleared counted ((hk.signed true).keepsArities_nnf hk)
    Scope.objective_empty hs).bind ?_
  rintro m s₁ ⟨hc, hspends⟩
  exact h hc hspends

/-- Where there are no quantifiers, it is that of the normal form. -/
theorem ensures_convertVia_open {P : Unit → Conversion → Prop} (hk : t.KeepsArities)
    (hq : t.QuantifierFree) (hs : s.journal = none)
    (h : Ensures (clausifyVia side conj (t.nnf true)) s P) :
    Ensures (convertVia side conj t) s P := by
  unfold convertVia
  refine .bind_ofExcept (lowerNot_eq_nnf hk true) ?_
  refine .bind_report _ hs ?_
  rw [matrix_empty_eq_pure ((hk.signed true).quantifierFree_nnf hq), pure_bind]
  exact h

/-- **The rest of a pass is paid for** by the bulk of what is left when the biconditionals are
written out. -/
theorem ensures_clausifyVia {m : Term} (budget : Nat) (hp : LiteralClass p)
    (hconj : NamesConjunctions counted p conj) (hs : s.journal = none)
    (h : Ensures (expandIffs side m) s fun m' s' =>
      Junctive p m' ∧ Spends counted budget m'.bulk s s') :
    Ensures (clausifyVia side conj m) s fun _ s' => Spends counted budget 0 s s' := by
  unfold clausifyVia
  refine h.bind ?_
  rintro m' s₁ ⟨hj, hexpand⟩
  refine (ensures_raiseAnds_spends hp hconj hj (hexpand.quiet hs)).bind ?_
  rintro c s₂ ⟨hr, hraise⟩
  have hspends : Spends counted budget (c.leaves .and).length s s₂ :=
    hexpand.trans hraise (by omega)
  refine .bind_report _ (hspends.quiet hs) ?_
  refine (ensures_gatherClauses_spends counted hp hr).mono ?_
  rintro _ s₃ ⟨-, hgather⟩
  exact hspends.trans hgather (by omega)

/-! ### Definitions of conjunctions' names -/

/-- The definition of a conjunction's name is distributed over the conjunction, and gathered. -/
theorem ensures_convertVia_distribute {P : Unit → Conversion → Prop} {c : Term}
    (hp : LiteralClass p) (side conj : Term → ConvertM Unit) (hand : c.isOp .and = true)
    (hc : Raised p c) (ha : atom.isAtom = true) (hpa : p atom) (hs : s.journal = none)
    (h : ∀ i : Fin [atom.neg, c].length, [atom.neg, c].get i = c →
      Raised p (distribute [atom.neg, c] i) →
      Ensures (gatherClauses (distribute [atom.neg, c] i)) s P) :
    Ensures (convertVia side conj (.imp atom c)) s P := by
  have hclause : Disjunctive p atom.neg := .literal (isLiteral_literal ha false) (hp.neg hpa)
  have hargs : ∀ a ∈ [atom.neg, c], Raised p a := forall_mem_pair.2 ⟨.clause hclause, hc⟩
  have hj : Junctive p (.node .or [atom.neg, c]) := .disj fun a ha => (hargs a ha).junctive
  have hnnf : (imp atom c).nnf true = .node .or [atom.neg, c] := by
    rw [imp, nnf, if_pos rfl, hc.junctive.nnf_eq, nnf_atom ha]
    rfl
  have himp : (imp atom c).Settled :=
    settled_node.2 ⟨rfl, by simp, forall_mem_pair.2
      ⟨hp.settled hpa, hp.settled_of_junctive hc.junctive⟩⟩
  refine ensures_convertVia_open himp.keepsArities himp.quantifierFree hs ?_
  rw [hnnf, clausifyVia, expandIffs_of_expanded side (hp.settled_of_junctive hj).expanded,
    pure_bind, raiseAnds, raiseAndsAll_eq_mapM,
    mapM_eq_pure fun a ha => raiseAnds_eq_pure conj (hargs a ha), pure_bind]
  -- one conjunction among the two members is no reason to name it
  have hno : atom.neg.isOp .and = false := rfl
  have hcount : [atom.neg, c].countP (·.isOp .and) ≤ 1 := by simp [hno, hand]
  let i : Fin [atom.neg, c].length := ⟨1, Nat.one_lt_two⟩
  have hi : ([atom.neg, c].get i).isOp .and = true := hand
  rw [disjoin_eq_distribute conj hcount hi, pure_bind]
  refine .bind_report _ hs (h i rfl (raised_distribute hc ?_ ?_))
  · exact fun a ha hand => (hargs a ha).disjunctive hand
  · exact fun j hj => isOp_and_of_countP hcount hi hj

/-- **The definition of a conjunction's name needs no name**: it makes no definition, whichever way
one would go, and comes to the clauses of the conjunction. -/
theorem ensures_convertVia_conjunction (counted : Bool) {c : Term} (hp : LiteralClass p)
    (side conj : Term → ConvertM Unit) (hand : c.isOp .and = true) (hc : Raised p c)
    (ha : atom.isAtom = true) (hpa : p atom) (hs : s.journal = none) :
    Ensures (convertVia side conj (.imp atom c)) s fun _ s' =>
      s'.definitions = s.definitions ∧ Spends counted (c.leaves .and).length 0 s s' := by
  refine ensures_convertVia_distribute hp side conj hand hc ha hpa hs fun i hi hr => ?_
  have hgather := ensures_gatherClauses_spends counted (s := s) hp hr
  rwa [length_leaves_distribute, hi] at hgather

/-! ### Definitions of sides' names -/

/-- **The definition of the name of a side made of literals needs names for conjunctions alone**,
and costs the two normal forms of the side, with what puts them together. -/
theorem ensures_convertVia_side (hp : LiteralClass p) (side : Term → ConvertM Unit)
    (hconj : NamesConjunctions counted p conj) (ht : Junctive p t) (ha : atom.isAtom = true)
    (hpa : p atom) (hs : s.journal = none) :
    Ensures (convertVia side conj (sideDefinition t atom)) s fun _ s' =>
      Spends counted (2 * t.bulk + 5) 0 s s' := by
  have hatom : Junctive p atom := .literal (isLiteral_literal ha true) hpa
  have hj : Junctive p ((sideDefinition t atom).nnf true) :=
    junctive_sideDefinition (hp.junctive_nnf ht) (hp.junctive_nnf hatom)
  have hbulk : ((sideDefinition t atom).nnf true).bulk = 2 * t.bulk + 5 := by
    rw [nnf_sideDefinition]
    simp only [bulk_junction (.inl rfl), bulk_junction (.inr rfl), total_cons, total_nil,
      ht.bulk_nnf, hatom.bulk_nnf, bulk_of_isAtom ha]
    omega
  have hsettled := settled_sideDefinition (hp.settled_of_junctive ht) (hp.settled hpa)
  refine ensures_convertVia_open hsettled.keepsArities hsettled.quantifierFree hs ?_
  refine ensures_clausifyVia _ hp hconj hs ?_
  -- there are no biconditionals left whose sides could be named
  rw [expandIffs_of_expanded side (hp.settled_of_junctive hj).expanded]
  exact .pure ⟨hj, .refl (Nat.le_of_eq hbulk) s⟩

/-- The definition of the name of any settled side needs names for sides made of literals. -/
theorem ensures_convertVia_settledSide (hside : NamesSides false Settled (Junctive Settled) side)
    (hconj : NamesConjunctions false Settled conj) (ht : t.Settled) (hta : atom.Settled)
    (hs : s.journal = none) :
    Ensures (convertVia side conj (sideDefinition t atom)) s fun _ s' => Spends false 0 0 s s' := by
  have hp := literalClass_settled
  have hsettled := settled_sideDefinition ht hta
  have hmixed := (hsettled.keepsArities.signed true).mixed_nnf hsettled
  refine ensures_convertVia_open hsettled.keepsArities hsettled.quantifierFree hs ?_
  refine ensures_clausifyVia _ hp hconj hs ?_
  refine (ensures_expandIffs_mixed hp hside id (fun {l s} hl ht hs => ?_) hmixed hs).mono ?_
  · rw [expandIffs_of_expanded side ht.expanded]
    exact .pure ⟨⟨hl, ht⟩, .refl (Nat.le_refl 0) s⟩
  · exact fun m s' h => ⟨h.1, h.2.uncounted⟩

/-! ### First-order formulas -/

/-- **A first-order formula has nineteen times the bulk of its normal form to spend**, whatever its
quantifiers. -/
theorem ensures_convertVia_formula (counted : Bool)
    (hside : NamesSides counted SettledFormula (Junctive SettledFormula) side)
    (hconj : NamesConjunctions counted SettledFormula conj) (hf : t.isFormula = true)
    (hs : s.journal = none) :
    Ensures (convertVia side conj t) s fun _ s' =>
      Spends counted (19 * (t.nnf true).bulk) 0 s s' := by
  have hp := literalClass_settledFormula
  have hk := KeepsArities.of_isFormula hf
  have hsigned := hk.signed true
  refine ensures_convertVia counted hk hs fun {m s₁} hc hclear => ?_
  have hmixed : Mixed (·.isFormula = true) m := (hc.normal hsigned.normal_nnf).mixed
    (fun hop h => ((isFormula_connective hop).1 h).2) hc.quantifierFree
    (hc.isFormula (hsigned.isFormula_nnf hf))
  have hs₁ := hclear.quiet hs
  refine (ensures_clausifyVia (19 * m.bulk) hp hconj hs₁ ?_).mono fun _ s' hspends => ?_
  · refine (ensures_expandIffs_mixed hp hside id (fun {l s} hl hf hs => ?_) hmixed hs₁).mono ?_
    · -- literals that are formulas have no biconditionals inside
      have hsettled := Settled.of_isLiteral hl hf
      rw [expandIffs_of_expanded side hsettled.expanded]
      exact .pure ⟨⟨hl, hf, hsettled⟩, .refl (Nat.le_refl 0) s⟩
    · exact fun m' s' h => ⟨h.1, h.2.mono (by omega)⟩
  · have hle := hc.bulk
    exact hclear.trans hspends (by omega)

/-! ### Levels -/

/-- One level is enough for the definitions of conjunctions' names, and two for those of sides made
of literals; more do no harm. -/
theorem namesConjunctions_convertWithin (hp : LiteralClass p) (limit : Nat) :
    NamesConjunctions counted p (convertWithin (limit + 1)) := by
  intro c atom s hand hc ha hpa hs
  rw [convertWithin_succ]
  exact (ensures_convertVia_conjunction counted hp _ _ hand hc ha hpa hs).mono fun _ _ h => h.2

theorem namesSides_convertWithin (hp : LiteralClass p) (limit : Nat) :
    NamesSides counted p (Junctive p) (convertWithin (limit + 2)) := by
  intro t atom s ht ha hpa hs
  rw [convertWithin_succ]
  exact ensures_convertVia_side hp _ (namesConjunctions_convertWithin hp limit) ht ha hpa hs

end ConvertM

end ClauseForm
