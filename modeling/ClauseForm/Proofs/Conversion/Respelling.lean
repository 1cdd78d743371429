import Mathlib.Logic.Relation
import ClauseForm.Proofs.Conversion.Invariance

/-!
# How a formula is written does not matter

Some connectives can be written with others: `a => b` is `~a | b`, and `a <~> b` is
`~(a <=> b)`. A negation can be moved inward, and two of them can be put in front of anything
(`ClauseForm.Respelling`). Formulas that come out of each other by such steps, at any place
below connectives and quantifiers (`ClauseForm.Respells`), have the same clauses
(`ClauseForm.convert_respelled`): the same list, and with it the same vocabulary.

For that, two formulas need only have the same normal form under either sign and the same
free occurrences of variables, in the same order (`ClauseForm.Term.SameNormal`). The sign is
what makes this an induction: a biconditional hands it to its left side alone, so that a
formula can be met with any sign, whatever stands around it.
-/

namespace ClauseForm

/-- The second formula says by definition what the first one says. -/
inductive Respelling : Term → Term → Prop
  /-- `x` is `~~x`. -/
  | twice (t : Term) : Respelling t t.neg.neg
  /-- `a => b` is `~a | b`. -/
  | implies (s t : Term) : Respelling (s.imp t) (.disj [s.neg, t])
  /-- `a ~& b` is `~(a & b)`. -/
  | nand (s t : Term) : Respelling (.node .nand [s, t]) (Term.conj [s, t]).neg
  /-- `a ~| b` is `~(a | b)`. -/
  | nor (s t : Term) : Respelling (.node .nor [s, t]) (Term.disj [s, t]).neg
  /-- `a <~> b` is `~(a <=> b)`. -/
  | xor (s t : Term) : Respelling (.node .xor [s, t]) (s.iff t).neg
  /-- `a <~> b` is `~a <=> b`. -/
  | xorLeft (s t : Term) : Respelling (.node .xor [s, t]) (s.neg.iff t)
  /-- `a != b` is `~(a = b)`. -/
  | notEquals (s t : Term) : Respelling (.node .notEquals [s, t]) (s.eq t).neg
  /-- `~(a & b)` is `~a | ~b`, and likewise for any number of arguments. -/
  | notAnd (ts : List Term) : Respelling (Term.conj ts).neg (.disj (ts.map .neg))
  /-- `~(a | b)` is `~a & ~b`, and likewise for any number of arguments. -/
  | notOr (ts : List Term) : Respelling (Term.disj ts).neg (.conj (ts.map .neg))
  /-- `~![X]: f` is `?[X]: ~f`, and `~?[X]: f` is `![X]: ~f`. -/
  | notQuant (q : Quantifier) (xs : List Var) (t : Term) :
    Respelling (Term.quant q xs t).neg (.quant q.dual xs t.neg)

/-- The second formula is the first one with one of its subformulas respelled. -/
inductive Respells : Term → Term → Prop
  /-- The formula itself. -/
  | here {t t' : Term} : Respelling t t' → Respells t t'
  /-- An argument of a connective. -/
  | connective {op : Op} (hop : op.isPredicate = false) (before after : List Term) {t t' : Term} :
    Respells t t' → Respells (.node op (before ++ t :: after)) (.node op (before ++ t' :: after))
  /-- The body of a quantifier. -/
  | body (q : Quantifier) (xs : List Var) {t t' : Term} :
    Respells t t' → Respells (.quant q xs t) (.quant q xs t')

namespace Term

/-! ### What respelling keeps -/

@[simp]
theorem nnf_neg (t : Term) (sign : Bool) : t.neg.nnf sign = t.nnf !sign := by
  rw [neg, nnf]

theorem keepsArities_neg {t : Term} : t.neg.KeepsArities ↔ t.KeepsArities := by
  rw [neg, keepsArities_node, List.forall_mem_singleton]
  exact and_iff_right rfl

@[simp]
theorem free_neg (t : Term) : t.neg.free = t.free := by
  simp [neg]

end Term

namespace Respelling

open Term

variable {t t' : Term}

/-- The same arguments stand under as many operators as these take. -/
theorem keepsArities_iff (h : Respelling t t') : t.KeepsArities ↔ t'.KeepsArities := by
  cases h with
  | twice t => rw [keepsArities_neg, keepsArities_neg]
  | implies s t | nand s t | nor s t | xor s t | xorLeft s t | notEquals s t =>
    simp [imp, conj, disj, Term.iff, Term.eq, keepsArities_neg, keepsArities_node, Op.takes,
      Op.arity]
  | notAnd ts | notOr ts =>
    simp [conj, disj, keepsArities_neg, keepsArities_node, Op.takes, Op.arity]
  | notQuant q xs t =>
    rw [keepsArities_neg, keepsArities_quant, keepsArities_quant, keepsArities_neg]

/-- The same variables occur free, in the same order. -/
theorem free_eq (h : Respelling t t') : t.free = t'.free := by
  cases h <;> simp [imp, conj, disj, Term.iff, Term.eq, List.flatMap_map]

/-- The normal forms are the same, under either sign. -/
theorem nnf_eq (h : Respelling t t') (sign : Bool) : t.nnf sign = t'.nnf sign := by
  cases h with
  | twice t => rw [nnf_neg, nnf_neg, Bool.not_not]
  | implies s t => rw [imp, disj, nnf, nnf, nnfAll, nnfAll, nnfAll, nnf_neg]
  | nand s t =>
    rw [conj, nnf_neg, nnf, nnf]
    cases sign <;> rfl
  | nor s t =>
    rw [disj, nnf_neg, nnf, nnf]
    cases sign <;> rfl
  | xor s t => rw [Term.iff, nnf_neg, nnf, nnf]
  | xorLeft s t => rw [Term.iff, nnf, nnf, nnf_neg]
  | notEquals s t => rw [Term.eq, nnf_neg, nnf, nnf_atom rfl]
  | notAnd ts | notOr ts =>
    rw [conj, disj, nnf_neg, nnf, nnf, nnfAll_eq_map, nnfAll_eq_map, List.map_map]
    cases sign <;> simp
  | notQuant q xs t =>
    rw [nnf_neg, nnf, nnf, nnf_neg]
    cases sign <;> cases q <;> rfl

end Respelling

namespace Term

/-! ### Formulas with the same normal forms -/

/-- The conversion can make no difference between the formulas. -/
structure SameNormal (t t' : Term) : Prop where
  keepsArities : t.KeepsArities ↔ t'.KeepsArities
  free : t.free = t'.free
  nnf : t.KeepsArities → ∀ sign, t.nnf sign = t'.nnf sign

/-- Where the argument counts are kept, what the arguments of a connective lower to is all that
matters. -/
theorem nnf_node_congr {op : Op} {args args' : List Term} (hop : op.isPredicate = false)
    (htakes : op.takes args.length = true)
    (h : List.Forall₂ (fun a a' => ∀ sign, nnf a sign = nnf a' sign) args args') (sign : Bool) :
    (Term.node op args).nnf sign = (Term.node op args').nnf sign := by
  have hmap : ∀ sign, args.map (nnf · sign) = args'.map (nnf · sign) := by
    intro sign
    rw [← List.forall₂_eq_eq_eq, List.forall₂_map_left_iff, List.forall₂_map_right_iff]
    exact h.imp fun _ _ ha => ha sign
  cases op with
  | equals | notEquals | less | lessEq | greater | greaterEq => cases hop
  | and | or | nand | nor =>
    rw [nnf, nnf, nnfAll_eq_map, nnfAll_eq_map, hmap]
  | not =>
    obtain ⟨t, rfl⟩ := Op.exists_of_takes_one rfl htakes
    obtain _ | ⟨ht, _ | _⟩ := h
    rw [nnf, nnf, ht]
  | iff | xor | implies =>
    obtain ⟨s, t, rfl⟩ := Op.exists_of_takes_two rfl htakes
    obtain _ | ⟨hs, _ | ⟨ht, _ | _⟩⟩ := h
    rw [nnf, nnf, hs, ht]

namespace SameNormal

variable {s t t' : Term}

theorem refl (t : Term) : SameNormal t t :=
  ⟨Iff.rfl, rfl, fun _ _ => rfl⟩

theorem symm (h : SameNormal t t') : SameNormal t' t :=
  ⟨h.keepsArities.symm, h.free.symm, fun hk sign => (h.nnf (h.keepsArities.2 hk) sign).symm⟩

theorem trans (h : SameNormal s t) (h' : SameNormal t t') : SameNormal s t' :=
  ⟨h.keepsArities.trans h'.keepsArities, h.free.trans h'.free,
    fun hk sign => (h.nnf hk sign).trans (h'.nnf (h.keepsArities.1 hk) sign)⟩

theorem of_respelling (h : Respelling t t') : SameNormal t t' :=
  ⟨h.keepsArities_iff, h.free_eq, fun _ => h.nnf_eq⟩

/-- A connective over formulas with the same normal forms. -/
theorem connective {op : Op} (hop : op.isPredicate = false) (before after : List Term)
    (h : SameNormal t t') :
    SameNormal (.node op (before ++ t :: after)) (.node op (before ++ t' :: after)) := by
  refine ⟨?_, by simp [h.free], fun hk sign => ?_⟩
  · simp only [keepsArities_node, List.length_append, List.length_cons, List.forall_mem_append,
      List.forall_mem_cons, h.keepsArities]
  · obtain ⟨htakes, hargs⟩ := keepsArities_node.1 hk
    have hsame : ∀ args : List Term,
        List.Forall₂ (fun a a' => ∀ sign, a.nnf sign = a'.nnf sign) args args :=
      fun args => List.forall₂_same.2 fun _ _ _ => rfl
    refine nnf_node_congr hop htakes (List.rel_append (hsame before) ?_) sign
    exact .cons (h.nnf (hargs t (by simp))) (hsame after)

/-- A quantifier over formulas with the same normal forms. -/
theorem quant (q : Quantifier) (xs : List Var) (h : SameNormal t t') :
    SameNormal (.quant q xs t) (.quant q xs t') := by
  refine ⟨?_, by rw [free_quant, free_quant, h.free], fun hk sign => ?_⟩
  · rw [keepsArities_quant, keepsArities_quant, h.keepsArities]
  · rw [Term.nnf, Term.nnf, h.nnf (keepsArities_quant.1 hk)]

/-- Their closures bind the same variables in the same order. -/
theorem universalClosure (h : SameNormal t t') :
    SameNormal t.universalClosure t'.universalClosure := by
  have hvars : t.freeVars = t'.freeVars := by
    rw [freeVars, freeVars, collectFree_eq, collectFree_eq, h.free]
  unfold Term.universalClosure
  rw [hvars]
  split
  · exact h
  · exact h.quant _ _

theorem of_respells (h : Respells t t') : SameNormal t t' := by
  induction h with
  | here h => exact .of_respelling h
  | connective hop before after _ ih => exact ih.connective hop before after
  | body q xs _ ih => exact ih.quant q xs

/-- So it is after any number of replacements, in either direction. -/
theorem of_eqvGen (h : Relation.EqvGen Respells t t') : SameNormal t t' := by
  induction h with
  | rel _ _ h => exact .of_respells h
  | refl t => exact .refl t
  | symm _ _ _ ih => exact ih.symm
  | trans _ _ _ _ _ ih ih' => exact ih.trans ih'

end SameNormal

end Term

/-! ### Respelling and conversion -/

open Conversion ConvertM Term

variable {t t' : Term}

/-- What is converted is the normal form. -/
theorem convertWithin_congr (h : SameNormal t t') (hk : t.KeepsArities) (limit : Nat) :
    convertWithin limit t = convertWithin limit t' := by
  have hnormal : t.lowerNot true = t'.lowerNot true := by
    rw [lowerNot_eq_nnf hk, lowerNot_eq_nnf (h.keepsArities.1 hk), h.nnf hk]
  cases limit with
  | zero => rfl
  | succ limit => rw [convertWithin, convertWithin, convertBy, convertBy, hnormal]

/-- **A formula may be written in any way.** Whatever subformulas of a well-formed formula are
respelled, one after the other and in either direction, the conversion comes to the same clauses
and leaves the same vocabulary. -/
theorem convert_respelled (h : Relation.EqvGen Respells t t') (ht : t.WellFormed)
    (voc : Vocabulary) : ∃ cnf voc', convert {} t voc = (.ok cnf, voc') ∧
      convert {} t' voc = (.ok cnf, voc') := by
  have hsame := (SameNormal.of_eqvGen h).universalClosure
  obtain ⟨s, hrun⟩ := exists_add ht.keepsArities (.start {} voc)
  have hrun' : add t' (.start {} voc) = .ok () s := by
    rw [← hrun, add_of_plain t rfl, add_of_plain t' rfl, addClosed_of_quiet rfl,
      addClosed_of_quiet rfl,
      convertWithin_congr hsame (keepsArities_universalClosure ht.keepsArities)]
  exact ⟨⟨s.clauses⟩, s.vocabulary, convert_of_add hrun, convert_of_add hrun'⟩

/-- The formula `![X]: (p(X) <=> ~(q <=> ~?[Y]: r(X, Y)))`. -/
def spelledExample : Term :=
  .quant .all [⟨0⟩] (.iff (.call ⟨0, .declared⟩ [.var ⟨0⟩]) (.neg (.iff (.const ⟨1, .declared⟩)
    (.neg (.quant .exist [⟨1⟩] (.call ⟨2, .declared⟩ [.var ⟨0⟩, .var ⟨1⟩]))))))

/-- The formula `![X]: (p(X) <=> (~q <=> ![Y]: ~r(X, Y)))`. -/
def respelledExample : Term :=
  .quant .all [⟨0⟩] (.iff (.call ⟨0, .declared⟩ [.var ⟨0⟩]) (.iff (.neg (.const ⟨1, .declared⟩))
    (.quant .all [⟨1⟩] (.neg (.call ⟨2, .declared⟩ [.var ⟨0⟩, .var ⟨1⟩])))))

/-- By way of `![X]: (p(X) <=> (q <~> ~?[Y]: r(X, Y)))`, the one is the other. -/
theorem eqvGen_spelledExample : Relation.EqvGen Respells spelledExample respelledExample := by
  -- a step in the right side of the outer biconditional
  have hside : ∀ {t t' : Term}, Respells t t' →
      Respells (.quant .all [⟨0⟩] (.iff (.call ⟨0, .declared⟩ [.var ⟨0⟩]) t))
        (.quant .all [⟨0⟩] (.iff (.call ⟨0, .declared⟩ [.var ⟨0⟩]) t')) :=
    fun h => .body _ _ (.connective rfl [_] [] h)
  refine .trans _ _ _ (.symm _ _ (.rel _ _ (hside (.here (.xor _ _))))) ?_
  refine .trans _ _ _ (.rel _ _ (hside (.here (.xorLeft _ _)))) (.rel _ _ (hside ?_))
  exact .connective rfl [_] [] (.here (.notQuant .exist _ _))

theorem convert_respelled_spelledExample :
    Relation.EqvGen Respells spelledExample respelledExample ∧ spelledExample.WellFormed ∧
      ∃ cnf voc', convert {} spelledExample openVocabulary = (.ok cnf, voc') ∧
        convert {} respelledExample openVocabulary = (.ok cnf, voc') :=
  ⟨eqvGen_spelledExample, by decide,
    convert_respelled eqvGen_spelledExample (by decide) openVocabulary⟩

end ClauseForm
