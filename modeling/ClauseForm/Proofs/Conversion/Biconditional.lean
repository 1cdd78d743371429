import ClauseForm.Proofs.Conversion.Minting
import ClauseForm.Proofs.Conversion.Shape
import ClauseForm.Proofs.Negation.Meaning

/-!
# Writing biconditionals out

Expanding the biconditionals of a formula in negation normal form without
quantifiers leaves literals under `&` and `|`, and is an exact rewriting
(`ClauseForm.ConvertM.ensures_expandIffs`). The sides that got names are made of
literals under `&` and `|` themselves by then, since the innermost biconditionals
are expanded first: so much can be said of the definitions
(`ClauseForm.Term.DefinesSide`) that go their own way. Where no biconditional is found,
nothing happens (`ClauseForm.ConvertM.expandIffs_of_expanded`).
-/

universe u

namespace ClauseForm

namespace Term

/-! ### Formulas without biconditionals -/

/-- No biconditional stands in the term. -/
def IffFree (t : Term) : Prop :=
  ∀ p ∈ t.parts, p.isOp .iff = false

theorem iffFree_node {op : Op} {args : List Term} :
    (Term.node op args).IffFree ↔ op ≠ .iff ∧ ∀ a ∈ args, a.IffFree := by
  simp only [IffFree, parts_node, List.forall_mem_cons, List.forall_mem_flatMap]
  simp [isOp, op?]

/-- No quantifier, no biconditional and no exclusive or stands in the term. -/
def Plain (t : Term) : Prop :=
  ∀ p ∈ t.parts, p.isQuant = false ∧ p.isOp .iff = false ∧ p.isOp .xor = false

instance (t : Term) : Decidable t.Plain :=
  inferInstanceAs (Decidable (∀ p ∈ t.parts, _ ∧ _ ∧ _))

theorem plain_node {op : Op} {args : List Term} :
    (Term.node op args).Plain ↔ (op ≠ .iff ∧ op ≠ .xor) ∧ ∀ a ∈ args, a.Plain := by
  simp only [Plain, parts_node, List.forall_mem_cons, List.forall_mem_flatMap]
  simp [isQuant, isOp, op?]

theorem plain_call {f : FunSym} {args : List Term} :
    (Term.call f args).Plain ↔ ∀ a ∈ args, a.Plain := by
  simp only [Plain, parts_call, List.forall_mem_cons, List.forall_mem_flatMap]
  exact and_iff_right ⟨rfl, rfl, rfl⟩

theorem Plain.iffFree {t : Term} (h : t.Plain) : t.IffFree :=
  fun p hp => (h p hp).2.1

/-- Objects are plain. -/
theorem Plain.of_isObject {t : Term} (h : t.isObject = true) : t.Plain := by
  induction t using Term.induct with
  | call f args ih => exact plain_call.2 fun a ha => ih a ha (isObject_call.1 h a ha)
  | node op args ih => simp [isObject] at h
  | quant q vars body ih => simp [isObject] at h
  | _ => simp [Plain, isQuant, isOp, op?]

/-- Atoms that are formulas are plain. -/
theorem Plain.of_isAtom {t : Term} (ha : t.isAtom = true) (hf : t.isFormula = true) : t.Plain := by
  cases t with
  | call f args => exact plain_call.2 fun a h => .of_isObject (isFormula_call.1 hf a h)
  | node op args =>
    have hop := (Bool.and_eq_true_iff.1 ha).1
    refine plain_node.2 ⟨⟨?_, ?_⟩, fun a h => .of_isObject (((isFormula_predicate hop).1 hf).2 a h)⟩
    · rintro rfl
      simp [Op.isPredicate] at hop
    · rintro rfl
      simp [Op.isPredicate] at hop
  | quant q vars body => simp [isAtom] at ha
  | _ => simp [Plain, isQuant, isOp, op?]

/-- Literals that are formulas are plain. -/
theorem Plain.of_isLiteral {t : Term} (hl : t.isLiteral = true) (hf : t.isFormula = true) :
    t.Plain := by
  obtain ⟨a, sign, ha, rfl⟩ := exists_of_isLiteral hl
  have hplain := Plain.of_isAtom ha (isFormula_of_literal hf)
  cases sign
  · exact plain_node.2 ⟨by simp, by simpa using hplain⟩
  · exact hplain

theorem Junctive.plain {t : Term} (h : Junctive (·.isFormula = true) t) : t.Plain := by
  induction h with
  | literal hl hf => exact .of_isLiteral hl hf
  | conj _ ih | disj _ ih => exact plain_node.2 ⟨by simp, ih⟩

/-! ### What is looked into -/

/-- No biconditional is found by going down from operator to operator. -/
inductive Expanded : Term → Prop
  /-- No operator stands at the top. -/
  | leaf {t : Term} : t.op? = none → Expanded t
  /-- An operator that is not a biconditional stands at the top. -/
  | node {op : Op} {args : List Term} : op ≠ .iff → (∀ a ∈ args, Expanded a) →
    Expanded (.node op args)

theorem expanded_node {op : Op} {args : List Term} :
    (Term.node op args).Expanded ↔ op ≠ .iff ∧ ∀ a ∈ args, a.Expanded := by
  constructor
  · rintro (h | ⟨hop, hargs⟩)
    · simp [op?] at h
    · exact ⟨hop, hargs⟩
  · rintro ⟨hop, hargs⟩
    exact .node hop hargs

theorem IffFree.expanded {t : Term} (h : t.IffFree) : t.Expanded := by
  induction t using Term.induct with
  | node op args ih =>
    obtain ⟨hop, hargs⟩ := iffFree_node.1 h
    exact .node hop fun a ha => ih a ha (hargs a ha)
  | _ => exact .leaf rfl

/-! ### What goes its own way -/

/-- The definition of an atom as the name of a side of a biconditional. -/
def sideDefinition (side atom : Term) : Term :=
  .conj [.imp side atom, .imp atom side]

section SideDefinition

variable {side atom : Term}

/-- Two implications in normal form, each with one of the two formulas negated. -/
theorem nnf_sideDefinition (side atom : Term) :
    (sideDefinition side atom).nnf true = .node .and
      [.node .or [side.nnf false, atom.nnf true], .node .or [atom.nnf false, side.nnf true]] := by
  simp [sideDefinition, conj, imp, nnf]

theorem isFormula_sideDefinition (hs : side.isFormula = true) (ha : atom.isFormula = true) :
    (sideDefinition side atom).isFormula = true := by
  refine isFormula_conj.2 (forall_mem_pair.2 ⟨?_, ?_⟩)
  · exact isFormula_imp.2 ⟨hs, ha⟩
  · exact isFormula_imp.2 ⟨ha, hs⟩

theorem quantifierFree_sideDefinition (hs : side.QuantifierFree) (ha : atom.QuantifierFree) :
    (sideDefinition side atom).QuantifierFree := by
  simp [sideDefinition, conj, imp, hs, ha]

/-- Two implications between formulas whose normal forms are made of literals. -/
theorem junctive_sideDefinition {p : Term → Prop} (hs : ∀ sign, Junctive p (side.nnf sign))
    (ha : ∀ sign, Junctive p (atom.nnf sign)) :
    Junctive p ((sideDefinition side atom).nnf true) := by
  rw [nnf_sideDefinition]
  refine .conj (forall_mem_pair.2 ⟨?_, ?_⟩)
  · exact (hs false).disj_pair (ha true)
  · exact (ha false).disj_pair (hs true)

end SideDefinition

/-- The formula defines an atom as the name of a formula made of literals. -/
def DefinesSide (t : Term) : Prop :=
  ∃ side atom, Junctive (·.isFormula = true) side ∧ atom.isAtom = true ∧ atom.isFormula = true ∧
    t = sideDefinition side atom

/-- Negations are taken off a literal until its atom is left. -/
theorem stripNegations_of_isLiteral {t : Term} (h : t.isLiteral = true) :
    ∃ a, a.isAtom = true ∧ t.stripNegations = .ok a := by
  obtain ⟨a, sign, ha, rfl⟩ := exists_of_isLiteral h
  have hstrip : a.stripNegations = .ok a := by
    cases a with
    | node op args => cases op <;> simp_all [isAtom, Op.isPredicate, stripNegations]
    | _ => rfl
  cases sign
  · exact ⟨a, ha, hstrip⟩
  · exact ⟨a, ha, hstrip⟩

/-- An atom is not headed by a connective. -/
theorem op?_isConnective_of_isAtom {t : Term} (h : t.isAtom = true) :
    t.op?.any Op.isConnective = false := by
  cases t with
  | node op args => cases op <;> simp_all [isAtom, Op.isPredicate, op?, Op.isConnective]
  | _ => rfl

end Term

namespace ConvertM

open Conversion Interpretation Term

variable {D : Type u} {define : Term → ConvertM Unit} {s : Conversion} {t : Term}

theorem expandIffsAll_eq_mapM (define : Term → ConvertM Unit) (ts : List Term) :
    expandIffsAll define ts = ts.mapM (expandIffs define) := by
  induction ts with
  | nil => rfl
  | cons t ts ih => rw [expandIffsAll, ih, List.mapM_cons]

/-- Going through formulas that all stay as they are. -/
theorem mapM_eq_pure {f : Term → ConvertM Term} {ts : List Term} (h : ∀ t ∈ ts, f t = pure t) :
    ts.mapM f = pure ts := by
  induction ts with
  | nil => rfl
  | cons t ts ih =>
    rw [List.mapM_cons, h t List.mem_cons_self, ih fun a ha => h a (List.mem_cons_of_mem t ha)]
    simp

/-- Where no biconditional is found, nothing happens. -/
theorem expandIffs_of_expanded (define : Term → ConvertM Unit) (h : t.Expanded) :
    expandIffs define t = pure t := by
  induction h with
  | @leaf t ht => cases t <;> first | rfl | simp [op?] at ht
  | node hop _ ih =>
    rw [expandIffs, expandIffsAll_eq_mapM, mapM_eq_pure ih]
    simp [hop]

/-- A formula without biconditionals stays as it is. -/
theorem expandIffs_eq_pure (define : Term → ConvertM Unit) (h : t.IffFree) :
    expandIffs define t = pure t :=
  expandIffs_of_expanded define h.expanded

/-- A side of a biconditional is rewritten by a literal: itself, or its name. -/
theorem ensures_nameSide (hdefine : Defines D define DefinesSide) {side : Term} (hs : s.Ready)
    (hw : side.Within s.vocabulary) (hside : Junctive (·.isFormula = true) side) :
    Ensures (nameSide define side) s fun l s' =>
      Rewrites D true [side] [l] s s' ∧ l.isLiteral = true ∧ l.isFormula = true := by
  have hname : Ensures (do
      let atom ← nameFor side
      define (sideDefinition side atom)
      return atom) s fun l s' =>
        Rewrites D true [side] [l] s s' ∧ l.isLiteral = true ∧ l.isFormula = true := by
    refine (ensures_named (sideDefinition side) hs hw hdefine
      (fun atom ha hf => ⟨side, atom, hside, ha, hf, rfl⟩) ?_ ?_ ?_).mono
      fun l s' h => ⟨h.1, isLiteral_literal h.2.1 true, h.2.2⟩
    · intro atom voc ha ht
      simp [sideDefinition, conj, imp, within_node, ht, ha]
    · intro I atom v h
      simp only [sideDefinition, conj, imp, holds_conj] at h
      refine .of_iff ⟨?_, ?_⟩
      · exact (I.holds_implies v atom side).1 (h _ (by simp))
      · exact (I.holds_implies v side atom).1 (h _ (by simp))
    · intro I atom v h
      simp [sideDefinition, conj, imp, h]
  unfold nameSide
  cases hside with
  | literal hl hf =>
    obtain ⟨a, ha, hstrip⟩ := stripNegations_of_isLiteral hl
    refine Ensures.bind_ofExcept hstrip ?_
    rw [if_neg (by simp [op?_isConnective_of_isAtom ha])]
    exact .pure ⟨.same hs hw, hl, hf⟩
  | @conj args _ | @disj args _ =>
    refine Ensures.bind_ofExcept rfl ?_
    rw [if_pos (by simp [op?, Op.isConnective])]
    exact hname

/-- A biconditional of literals is rewritten by two implications in normal form. -/
theorem ensures_expandIff {l r : Term} (hs : s.Ready) (hw : ∀ a ∈ [l, r], a.Within s.vocabulary)
    (hl : l.isLiteral = true) (hlf : l.isFormula = true) (hr : r.isLiteral = true)
    (hrf : r.isFormula = true) :
    Ensures (expandIff l r) s fun t s' =>
      Rewrites D true [.node .iff [l, r]] [t] s s' ∧ Junctive (·.isFormula = true) t := by
  have hf := isFormula_sideDefinition hlf hrf
  have hsigned := (KeepsArities.of_isFormula hf).signed true
  refine .ofExcept (lowerNot_eq_nnf (.of_isFormula hf) true) ⟨.of_iff hs ?_ fun I v => ?_, ?_⟩
  · intro f hfun
    rw [hsigned.funs_nnf] at hfun
    simp only [sideDefinition, conj, imp, funs_node, List.flatMap_cons, List.flatMap_nil,
      List.append_nil, List.mem_append] at hfun
    rcases hfun with (h | h) | (h | h)
    · exact hw l (by simp) f h
    · exact hw r (by simp) f h
    · exact hw r (by simp) f h
    · exact hw l (by simp) f h
  · rw [hsigned.holds_nnf, iff_true_right rfl]
    simp only [sideDefinition, conj, imp, holds_conj, holds_iff]
    simp [iff_iff_implies_and_implies]
  · exact junctive_sideDefinition (Junctive.literal hl hlf).nnf (Junctive.literal hr hrf).nnf

/-- **Biconditionals are written out exactly**, and literals under `&` and `|` are left. -/
theorem ensures_expandIffs (hn : t.Normal) (hf : t.isFormula = true) (hq : t.QuantifierFree)
    (hdefine : Defines D define DefinesSide) (hs : s.Ready) (hw : t.Within s.vocabulary) :
    Ensures (expandIffs define t) s fun t' s' =>
      Rewrites D true [t] [t'] s s' ∧ Junctive (·.isFormula = true) t' := by
  have hliteral : ∀ {l : Term} {s : Conversion}, l.isLiteral = true → l.isFormula = true →
      s.Ready → l.Within s.vocabulary → Ensures (expandIffs define l) s fun t' s' =>
        Rewrites D true [l] [t'] s s' ∧ Junctive (·.isFormula = true) t' := by
    intro l s hl hf hs hw
    rw [expandIffs_eq_pure define (Plain.of_isLiteral hl hf).iffFree]
    exact .pure ⟨.same hs hw, .literal hl hf⟩
  induction hn generalizing s with
  | atom ha => exact hliteral (isLiteral_literal ha true) hf hs hw
  | negated ha => exact hliteral (isLiteral_literal ha false) hf hs hw
  | @conj args _ ih | @disj args _ ih =>
    have hargs := ((isFormula_connective rfl).1 hf).2
    rw [expandIffs, expandIffsAll_eq_mapM]
    refine (Ensures.mapM D true hs (within_node.1 hw) fun a ha s hs hw =>
      ih a ha (hargs a ha) (quantifierFree_node.1 hq a ha) hs hw).bind ?_
    rintro args' s' ⟨hr, hj⟩
    exact .pure ⟨hr.connective rfl, by first | exact .conj hj | exact .disj hj⟩
  | @iff a b _ _ iha ihb =>
    have hargs := ((isFormula_connective rfl).1 hf).2
    have hqs := quantifierFree_node.1 hq
    have hws := within_node.1 hw
    -- the sides are rewritten, then named one after the other, and the names written out
    rw [expandIffs, expandIffsAll, expandIffsAll, expandIffsAll]
    simp only [bind_assoc, pure_bind, if_true]
    refine (iha (hargs a (by simp)) (hqs a (by simp)) hs (hws a (by simp))).bind ?_
    rintro a' s₁ ⟨ha, haj⟩
    have hbw : b.Within s₁.vocabulary := (hws b (by simp)).mono ha.grows.funs
    refine (ihb (hargs b (by simp)) (hqs b (by simp)) ha.ready hbw).bind ?_
    rintro b' s₂ ⟨hb, hbj⟩
    have ha'w : a'.Within s₂.vocabulary := (ha.within a' (by simp)).mono hb.grows.funs
    refine (ensures_nameSide hdefine hb.ready ha'w haj).bind ?_
    rintro l s₃ ⟨hl, hll, hlf⟩
    have hb'w : b'.Within s₃.vocabulary := (hb.within b' (by simp)).mono hl.grows.funs
    refine (ensures_nameSide hdefine hl.ready hb'w hbj).bind ?_
    rintro r s₄ ⟨hr, hrl, hrf⟩
    have hsides : Rewrites D true [a, b] [l, r] s s₄ := by
      have hfirst : Rewrites D true [a, b] [a', b'] s s₂ :=
        ha.cons (by simpa using hws b (by simp)) hb
      exact hfirst.trans (hl.cons (by simpa using hb.within b' (by simp)) hr)
    refine (ensures_expandIff (D := D) hr.ready hsides.within hll hlf hrl hrf).mono ?_
    rintro t' s₅ ⟨ht, hj⟩
    exact ⟨(hsides.connective rfl).trans ht, hj⟩
  | quant _ => exact absurd hq not_quantifierFree_quant

end ConvertM

end ClauseForm
