import ClauseForm.Proofs.Conversion.Biconditional
import ClauseForm.Proofs.Conversion.Bulk

/-!
# What a conversion leaves alone

The first-order formulas are not the only terms that can be converted: connectives and
quantifiers may stand inside the arguments of atoms. Taking the quantifiers away looks
everywhere, and writing biconditionals out looks below every operator, but not into
calls. A term is *settled* (`ClauseForm.Term.Settled`) if neither finds anything to do in
it. Negation normal form may bring biconditionals back, but only in place of an
exclusive or outside of atoms (`ClauseForm.Term.Signed.mixed_nnf`).

What else is known of the literals that a formula is made of is a parameter of the
theory, which only relies on the names of subformulas belonging to them
(`ClauseForm.Term.LiteralClass`). Settled literals are such a class, and so are those that
are formulas of first-order logic.
-/

namespace ClauseForm

namespace Term

variable {p q : Term → Prop} {t : Term} {sign : Bool}

/-! ### Settled terms -/

/-- The argument counts are kept, and neither quantifiers nor biconditionals are left to be
found. -/
structure Settled (t : Term) : Prop where
  quantifierFree : t.QuantifierFree
  keepsArities : t.KeepsArities
  expanded : t.Expanded

theorem settled_node {op : Op} {args : List Term} :
    (Term.node op args).Settled ↔
      op.takes args.length = true ∧ op ≠ .iff ∧ ∀ a ∈ args, a.Settled := by
  constructor
  · rintro ⟨hq, hk, he⟩
    rw [quantifierFree_node] at hq
    rw [keepsArities_node] at hk
    rw [expanded_node] at he
    exact ⟨hk.1, he.1, fun a ha => ⟨hq a ha, hk.2 a ha, he.2 a ha⟩⟩
  · rintro ⟨htakes, hop, hargs⟩
    exact ⟨quantifierFree_node.2 fun a ha => (hargs a ha).quantifierFree,
      keepsArities_node.2 ⟨htakes, fun a ha => (hargs a ha).keepsArities⟩,
      expanded_node.2 ⟨hop, fun a ha => (hargs a ha).expanded⟩⟩

/-- Objects are settled. -/
theorem Settled.of_isObject (h : t.isObject = true) : t.Settled := by
  refine ⟨.of_isObject h, .of_isObject h, .leaf ?_⟩
  cases t <;> first | rfl | simp [isObject] at h

/-- What defines the name of a settled side is settled. -/
theorem settled_sideDefinition {side atom : Term} (hs : side.Settled) (ha : atom.Settled) :
    (sideDefinition side atom).Settled := by
  have himp : ∀ {s t : Term}, s.Settled → t.Settled → (imp s t).Settled := fun h h' =>
    settled_node.2 ⟨rfl, by simp, forall_mem_pair.2 ⟨h, h'⟩⟩
  exact settled_node.2 ⟨rfl, by simp, forall_mem_pair.2 ⟨himp hs ha, himp ha hs⟩⟩

/-! ### Classes of literals -/

/-- A class of terms that are settled. It has with a connective what that stands over, with a term
its negation, and all names of subformulas. -/
structure LiteralClass (p : Term → Prop) : Prop where
  settled : ∀ {t}, p t → t.Settled
  arg : ∀ {op args}, op.isPredicate = false → p (.node op args) → ∀ a ∈ args, p a
  neg : ∀ {t}, p t → p t.neg
  name : ∀ (f : FunSym) (xs : List Var), p (f.appliedTo (xs.map .var))

/-- Settled terms are a class of literals. -/
theorem literalClass_settled : LiteralClass Settled where
  settled := id
  arg _ h := (settled_node.1 h).2.2
  neg h := settled_node.2 ⟨rfl, by simp, by simpa using h⟩
  name f xs := .of_isObject ((f.isObject_appliedTo _).2 (List.forall_mem_map.2 fun _ _ => rfl))

/-- The term is a formula of first-order logic, and settled. -/
def SettledFormula (t : Term) : Prop :=
  t.isFormula = true ∧ t.Settled

/-- Formulas of first-order logic that are settled are a class of literals. -/
theorem literalClass_settledFormula : LiteralClass SettledFormula where
  settled h := h.2
  arg hop h a ha := ⟨((isFormula_connective hop).1 h.1).2 a ha, (settled_node.1 h.2).2.2 a ha⟩
  neg h := ⟨isFormula_literal false h.1, literalClass_settled.neg h.2⟩
  name f xs :=
    ⟨(f.isFormula_appliedTo _).2 (List.forall_mem_map.2 fun _ _ => rfl),
      literalClass_settled.name f xs⟩

namespace LiteralClass

/-- A term and its literals are in the class or not together. -/
theorem literal_iff (hp : LiteralClass p) {a : Term} {sign : Bool} :
    p (Task.literal a sign) ↔ p a := by
  cases sign
  · exact ⟨fun h => hp.arg rfl h a (by simp), hp.neg⟩
  · exact Iff.rfl

/-- What is made of literals of the class is settled. -/
theorem settled_of_junctive (hp : LiteralClass p) (h : Junctive p t) : t.Settled := by
  induction h with
  | literal _ ht => exact hp.settled ht
  | conj _ ih | disj _ ih => exact settled_node.2 ⟨rfl, by simp, ih⟩

/-- The normal form of what is made of literals of the class is made of such literals. -/
theorem junctive_nnf (hp : LiteralClass p) (h : Junctive p t) (sign : Bool) :
    Junctive p (t.nnf sign) :=
  h.nnf_of (fun hl _ => hp.literal_iff.2 (hp.literal_iff.1 hl)) sign

end LiteralClass

/-- Literals that are formulas of first-order logic are settled. -/
theorem Settled.of_isLiteral (hl : t.isLiteral = true) (hf : t.isFormula = true) : t.Settled :=
  ⟨quantifierFree_of_isLiteral hl hf, .of_isFormula hf, (Plain.of_isLiteral hl hf).iffFree.expanded⟩

theorem SettledFormula.of_isLiteral (hl : t.isLiteral = true) (hf : t.isFormula = true) :
    t.SettledFormula :=
  ⟨hf, .of_isLiteral hl hf⟩

/-! ### Sides of biconditionals -/

/-- Whatever the sign, the normal form is a literal of a class. -/
structure Elementary (p : Term → Prop) (t : Term) : Prop where
  keepsArities : t.KeepsArities
  literal : ∀ sign, (t.nnf sign).isLiteral = true ∧ p (t.nnf sign)

/-- The literals of a class are elementary. -/
theorem LiteralClass.elementary (hp : LiteralClass p) (hl : t.isLiteral = true) (ht : p t) :
    Elementary p t := by
  refine ⟨(hp.settled ht).keepsArities, fun sign => ⟨isLiteral_nnf hl sign, ?_⟩⟩
  obtain ⟨a, sign', ha, rfl⟩ := exists_of_isLiteral hl
  rw [nnf_literal ha]
  exact hp.literal_iff.2 (hp.literal_iff.1 ht)

/-- What a side of a biconditional has to be: if there is no connective below its negations, which
is when it gets no name, it is elementary. -/
def IsSide (p : Term → Prop) (t : Term) : Prop :=
  ∃ core, t.stripNegations = .ok core ∧ (core.op?.any Op.isConnective = false → Elementary p t)

/-- What is made of literals of a class may stand at a side. -/
theorem LiteralClass.isSide_of_junctive (hp : LiteralClass p) (h : Junctive p t) : IsSide p t := by
  rcases h with ⟨hl, ht⟩ | @⟨args, -⟩ | @⟨args, -⟩
  · obtain ⟨a, -, hstrip⟩ := stripNegations_of_isLiteral hl
    exact ⟨a, hstrip, fun _ => hp.elementary hl ht⟩
  · exact ⟨_, rfl, fun h => by simp [op?, Op.isConnective] at h⟩
  · exact ⟨_, rfl, fun h => by simp [op?, Op.isConnective] at h⟩

/-- Settled terms may stand at a side. -/
theorem Settled.isSide (h : t.Settled) : IsSide Settled t := by
  have hatom : ∀ {t : Term}, t.isAtom = true → t.Settled → t.stripNegations = .ok t →
      IsSide Settled t := fun ha ht hstrip =>
    ⟨_, hstrip, fun _ => literalClass_settled.elementary (isLiteral_literal ha true) ht⟩
  induction t using Term.induct with
  | node op args ih =>
    obtain ⟨htakes, hop, hargs⟩ := settled_node.1 h
    cases op with
    | not =>
      -- a negation is taken off, and turns the sign of the normal form
      obtain ⟨a, rfl⟩ := Op.exists_of_takes_one rfl htakes
      obtain ⟨core, hstrip, helem⟩ := ih a (by simp) (hargs a (by simp))
      refine ⟨core, hstrip, fun hcore => ⟨h.keepsArities, fun sign => ?_⟩⟩
      rw [nnf]
      exact (helem hcore).literal !sign
    | notEquals =>
      refine ⟨_, rfl, fun _ => ⟨h.keepsArities, fun sign => ?_⟩⟩
      rw [nnf]
      refine ⟨isLiteral_literal rfl _, literalClass_settled.literal_iff.2 ?_⟩
      exact settled_node.2 ⟨htakes, by simp, hargs⟩
    | equals | less | lessEq | greater | greaterEq => exact hatom rfl h rfl
    | _ => exact ⟨_, rfl, fun h => by simp [op?, Op.isConnective] at h⟩
  | quant q vars body ih => exact absurd h.quantifierFree not_quantifierFree_quant
  | _ => exact hatom rfl h rfl

/-! ### Normal forms without quantifiers -/

/-- Literals under conjunctions, disjunctions and biconditionals. -/
inductive Mixed (q : Term → Prop) : Term → Prop
  /-- A literal. -/
  | literal {t : Term} : t.isLiteral = true → q t → Mixed q t
  /-- A conjunction. -/
  | conj {args : List Term} : (∀ a ∈ args, Mixed q a) → Mixed q (.node .and args)
  /-- A disjunction. -/
  | disj {args : List Term} : (∀ a ∈ args, Mixed q a) → Mixed q (.node .or args)
  /-- A biconditional. -/
  | iff {s t : Term} : Mixed q s → Mixed q t → Mixed q (.node .iff [s, t])

/-- A normal form without quantifiers is made of literals, which have what it hands down to them. -/
theorem Normal.mixed (h : Normal t)
    (harg : ∀ {op args}, op.isPredicate = false → q (.node op args) → ∀ a ∈ args, q a)
    (hfree : t.QuantifierFree) (ht : q t) : Mixed q t := by
  induction h with
  | atom ha => exact .literal (isLiteral_literal ha true) ht
  | negated ha => exact .literal (isLiteral_literal ha false) ht
  | conj _ ih =>
    rw [quantifierFree_node] at hfree
    exact .conj fun a ha => ih a ha (hfree a ha) (harg rfl ht a ha)
  | disj _ ih =>
    rw [quantifierFree_node] at hfree
    exact .disj fun a ha => ih a ha (hfree a ha) (harg rfl ht a ha)
  | @iff s t _ _ hs ht' =>
    rw [quantifierFree_node, forall_mem_pair] at hfree
    have hq := forall_mem_pair.1 (harg rfl ht)
    exact .iff (hs hfree.1 hq.1) (ht' hfree.2 hq.2)
  | quant _ _ => exact absurd hfree not_quantifierFree_quant

/-- Conjunctions and disjunctions, whichever the sign makes it. -/
theorem mixed_junction {op : Op} (hop : op = .and ∨ op = .or) {args : List Term}
    (h : ∀ a ∈ args, Mixed q a) : Mixed q (.node op args) := by
  rcases hop with rfl | rfl
  · exact .conj h
  · exact .disj h

/-- **The normal form of a settled term is made of settled literals**, though an exclusive or in it
leaves a biconditional above them. -/
theorem Signed.mixed_nnf (h : Signed t sign) (ht : t.Settled) : Mixed Settled (t.nnf sign) := by
  induction h with
  | atom sign ha =>
    rw [nnf_atom ha]
    exact .literal (isLiteral_literal ha sign) (literalClass_settled.literal_iff.2 ht)
  | notEquals s t sign =>
    rw [nnf]
    obtain ⟨htakes, -, hargs⟩ := settled_node.1 ht
    exact .literal (isLiteral_literal rfl _)
      (literalClass_settled.literal_iff.2 (settled_node.2 ⟨htakes, by simp, hargs⟩))
  | not _ ih => exact ih ((settled_node.1 ht).2.2 _ (by simp))
  | @conj args sign _ ih | @disj args sign _ ih =>
    rw [nnf, nnfAll_eq_map]
    exact mixed_junction (by cases sign <;> simp)
      (List.forall_mem_map.2 fun a ha => ih a ha ((settled_node.1 ht).2.2 a ha))
  | @nand s t sign _ _ hs ht' | @nor s t sign _ _ hs ht' | @implies s t sign _ _ hs ht' =>
    obtain ⟨h₁, h₂⟩ := forall_mem_pair.1 (settled_node.1 ht).2.2
    rw [nnf]
    exact mixed_junction (by cases sign <;> simp) (by simp [hs h₁, ht' h₂])
  | xor _ _ hs ht' =>
    obtain ⟨h₁, h₂⟩ := forall_mem_pair.1 (settled_node.1 ht).2.2
    exact .iff (hs h₁) (ht' h₂)
  | iff _ _ _ _ => exact absurd rfl (settled_node.1 ht).2.1
  | quant _ _ => exact absurd ht.quantifierFree not_quantifierFree_quant

end Term

end ClauseForm
