import ClauseForm.Proofs.Negation.Recursive
import ClauseForm.Proofs.Syntax.Free
import ClauseForm.Proofs.Syntax.WellFormed

/-!
# The shape of the normal form

A formula in negation normal form (`ClauseForm.Term.Normal`) is made of atoms and
negated atoms by `&`, `|`, `<=>` and quantifiers, and that is what
`ClauseForm.Term.nnf` makes of a term (`ClauseForm.Term.Signed.normal_nnf`). The normal
form mentions the same symbols and the same free variables, in the same order
(`ClauseForm.Term.Signed.funs_nnf`, `ClauseForm.Term.Signed.free_nnf`).

A normal form is *monotone* (`ClauseForm.Term.Monotone`) if its quantifiers stand
below `&`, `|` and quantifiers only, so that each of them stands positively. That
is what becomes of a formula with open sides
(`ClauseForm.Term.Signed.monotone_nnf`).
-/

namespace ClauseForm

namespace Term

/-! ### Atoms -/

/-- Whether a term is neither a connective, nor a quantifier, nor a negated equation. -/
def isAtom : Term → Bool
  | .node op _ => op.isPredicate && op != .notEquals
  | .quant _ _ _ => false
  | _ => true

/-- An atom is its own normal form, up to the sign. -/
theorem nnf_atom {t : Term} (h : t.isAtom = true) (sign : Bool) :
    t.nnf sign = Task.literal t sign := by
  rw [nnf]
  all_goals
    intros
    subst_vars
    simp [isAtom, Op.isPredicate] at h

/-- The normal form of a literal is a literal over the same atom, under the two signs taken
together. -/
theorem nnf_literal {a : Term} (h : a.isAtom = true) (sign sign' : Bool) :
    (Task.literal a sign).nnf sign' = Task.literal a (sign == sign') := by
  cases sign
  · change (Term.node .not [a]).nnf sign' = _
    rw [nnf, nnf_atom h, Bool.false_beq]
  · rw [Bool.true_beq]
    exact nnf_atom h sign'

/-! ### Induction along the signs -/

/-- How a formula is reached by the normal form of another: with which sign, and through which of
its parts. Every formula that keeps the argument counts is reached with every sign
(`ClauseForm.Term.KeepsArities.signed`), so that an induction over this predicate goes along with
`ClauseForm.Term.nnf`. -/
inductive Signed : Term → Bool → Prop
  /-- An atom ends the recursion. -/
  | atom {t : Term} (sign : Bool) : t.isAtom = true → Signed t sign
  /-- So does a negated equation. -/
  | notEquals (s t : Term) (sign : Bool) : Signed (.node .notEquals [s, t]) sign
  /-- A negation turns the sign. -/
  | not {t : Term} {sign : Bool} : Signed t (!sign) → Signed (.node .not [t]) sign
  /-- A conjunction keeps the sign. -/
  | conj {args : List Term} {sign : Bool} :
    (∀ a ∈ args, Signed a sign) → Signed (.node .and args) sign
  /-- A disjunction keeps the sign. -/
  | disj {args : List Term} {sign : Bool} :
    (∀ a ∈ args, Signed a sign) → Signed (.node .or args) sign
  /-- A negated conjunction turns the sign. -/
  | nand {s t : Term} {sign : Bool} :
    Signed s (!sign) → Signed t (!sign) → Signed (.node .nand [s, t]) sign
  /-- A negated disjunction turns the sign. -/
  | nor {s t : Term} {sign : Bool} :
    Signed s (!sign) → Signed t (!sign) → Signed (.node .nor [s, t]) sign
  /-- An implication turns the sign on its left. -/
  | implies {s t : Term} {sign : Bool} :
    Signed s (!sign) → Signed t sign → Signed (.node .implies [s, t]) sign
  /-- A biconditional keeps the sign on its left, and has none on its right. -/
  | iff {s t : Term} {sign : Bool} :
    Signed s sign → Signed t true → Signed (.node .iff [s, t]) sign
  /-- An exclusive or turns the sign on its left, and has none on its right. -/
  | xor {s t : Term} {sign : Bool} :
    Signed s (!sign) → Signed t true → Signed (.node .xor [s, t]) sign
  /-- A quantifier keeps the sign. -/
  | quant {q : Quantifier} {vars : List Var} {body : Term} {sign : Bool} :
    Signed body sign → Signed (.quant q vars body) sign

/-- Where the argument counts are kept, the recursion reaches everything. -/
theorem KeepsArities.signed {t : Term} (h : t.KeepsArities) (sign : Bool) : Signed t sign := by
  induction t using Term.induct generalizing sign with
  | node op args ih =>
    obtain ⟨harity, hargs⟩ := keepsArities_node.1 h
    have hsigned : ∀ a ∈ args, ∀ sign, Signed a sign := fun a ha => ih a ha (hargs a ha)
    cases op with
    | and => exact .conj fun a ha => hsigned a ha sign
    | or => exact .disj fun a ha => hsigned a ha sign
    | equals | less | lessEq | greater | greaterEq => exact .atom sign rfl
    | not =>
      obtain ⟨t, rfl⟩ := Op.exists_of_takes_one rfl harity
      exact .not (hsigned t (by simp) _)
    | notEquals =>
      obtain ⟨s, t, rfl⟩ := Op.exists_of_takes_two rfl harity
      exact .notEquals s t sign
    | nand =>
      obtain ⟨s, t, rfl⟩ := Op.exists_of_takes_two rfl harity
      exact .nand (hsigned s (by simp) _) (hsigned t (by simp) _)
    | nor =>
      obtain ⟨s, t, rfl⟩ := Op.exists_of_takes_two rfl harity
      exact .nor (hsigned s (by simp) _) (hsigned t (by simp) _)
    | implies =>
      obtain ⟨s, t, rfl⟩ := Op.exists_of_takes_two rfl harity
      exact .implies (hsigned s (by simp) _) (hsigned t (by simp) _)
    | iff =>
      obtain ⟨s, t, rfl⟩ := Op.exists_of_takes_two rfl harity
      exact .iff (hsigned s (by simp) _) (hsigned t (by simp) _)
    | xor =>
      obtain ⟨s, t, rfl⟩ := Op.exists_of_takes_two rfl harity
      exact .xor (hsigned s (by simp) _) (hsigned t (by simp) _)
  | quant q vars body ih => exact .quant (ih (keepsArities_quant.1 h) sign)
  | _ => exact .atom sign rfl

/-! ### Normal forms -/

/-- A formula in negation normal form. -/
inductive Normal : Term → Prop
  /-- An atom. -/
  | atom {t : Term} : t.isAtom = true → Normal t
  /-- A negated atom. -/
  | negated {t : Term} : t.isAtom = true → Normal (.node .not [t])
  /-- A conjunction of normal forms. -/
  | conj {args : List Term} : (∀ a ∈ args, Normal a) → Normal (.node .and args)
  /-- A disjunction of normal forms. -/
  | disj {args : List Term} : (∀ a ∈ args, Normal a) → Normal (.node .or args)
  /-- A biconditional of normal forms. -/
  | iff {s t : Term} : Normal s → Normal t → Normal (.node .iff [s, t])
  /-- A quantifier over a normal form. -/
  | quant {q : Quantifier} {vars : List Var} {body : Term} :
    Normal body → Normal (.quant q vars body)

theorem normal_literal {t : Term} (h : t.isAtom = true) (sign : Bool) :
    Normal (Task.literal t sign) := by
  cases sign
  · exact .negated h
  · exact .atom h

/-- Normal forms below a conjunction or disjunction, whichever the sign makes it. -/
theorem normal_junction {op : Op} (hop : op = .and ∨ op = .or) {args : List Term} {sign : Bool}
    (h : ∀ a ∈ args, Normal (a.nnf sign)) : Normal (.node op (args.map (nnf · sign))) := by
  have hargs : ∀ b ∈ args.map (nnf · sign), Normal b := List.forall_mem_map.2 h
  rcases hop with rfl | rfl
  · exact .conj hargs
  · exact .disj hargs

/-- **The normal form is one.** -/
theorem Signed.normal_nnf {t : Term} {sign : Bool} (h : Signed t sign) : (t.nnf sign).Normal := by
  induction h with
  | atom sign ha => exact nnf_atom ha sign ▸ normal_literal ha sign
  | notEquals s t sign => exact normal_literal rfl _
  | not _ ih => exact ih
  | @conj args sign _ ih | @disj args sign _ ih =>
    rw [nnf, nnfAll_eq_map]
    exact normal_junction (by cases sign <;> simp) ih
  | @nand s t sign _ _ hs ht | @nor s t sign _ _ hs ht =>
    rw [nnf, nnfAll_eq_map]
    exact normal_junction (by cases sign <;> simp) (by simp [hs, ht])
  | @implies s t sign _ _ hs ht =>
    have hsides : ∀ a ∈ [s.nnf !sign, t.nnf sign], Normal a := by simp [hs, ht]
    rw [nnf]
    cases sign
    · exact .conj hsides
    · exact .disj hsides
  | iff _ _ hs ht | xor _ _ hs ht => exact .iff hs ht
  | quant _ ih => exact .quant ih

/-! ### What the normal form mentions -/

theorem funs_literal (t : Term) (sign : Bool) : (Task.literal t sign).funs = t.funs := by
  cases sign <;> simp [Task.literal, neg]

theorem free_literal (t : Term) (sign : Bool) : (Task.literal t sign).free = t.free := by
  cases sign <;> simp [Task.literal, neg]

/-- The normal form mentions the same function symbols in the same order. -/
theorem Signed.funs_nnf {t : Term} {sign : Bool} (h : Signed t sign) :
    (t.nnf sign).funs = t.funs := by
  induction h with
  | atom sign ha => rw [nnf_atom ha, funs_literal]
  | notEquals s t sign => rw [nnf, funs_literal, funs_node, funs_node]
  | not _ ih => simpa [nnf] using ih
  | conj _ ih | disj _ ih =>
    simp only [nnf, nnfAll_eq_map, funs_node, List.flatMap_map]
    exact congrArg List.flatten (List.map_congr_left ih)
  | nand _ _ hs ht | nor _ _ hs ht | implies _ _ hs ht | iff _ _ hs ht | xor _ _ hs ht =>
    simp [nnf, hs, ht]
  | quant _ ih => simpa [nnf] using ih

/-- The normal form has the same free occurrences of variables in the same order. -/
theorem Signed.free_nnf {t : Term} {sign : Bool} (h : Signed t sign) :
    (t.nnf sign).free = t.free := by
  induction h with
  | atom sign ha => rw [nnf_atom ha, free_literal]
  | notEquals s t sign => rw [nnf, free_literal, free_node, free_node]
  | not _ ih => simpa [nnf] using ih
  | conj _ ih | disj _ ih =>
    simp only [nnf, nnfAll_eq_map, free_node, List.flatMap_map]
    exact congrArg List.flatten (List.map_congr_left ih)
  | nand _ _ hs ht | nor _ _ hs ht | implies _ _ hs ht | iff _ _ hs ht | xor _ _ hs ht =>
    simp [nnf, hs, ht]
  | quant _ ih => simp [nnf, ih]

/-! ### Formulas stay formulas -/

theorem isFormula_literal {t : Term} (sign : Bool) (h : t.isFormula = true) :
    (Task.literal t sign).isFormula = true := by
  cases sign
  · exact (isFormula_connective rfl).2 ⟨rfl, by simpa using h⟩
  · exact h

/-- The normal form of a formula is a formula. -/
theorem Signed.isFormula_nnf {t : Term} {sign : Bool} (h : Signed t sign)
    (hf : t.isFormula = true) : (t.nnf sign).isFormula = true := by
  induction h with
  | atom sign ha => exact nnf_atom ha sign ▸ isFormula_literal sign hf
  | notEquals s t sign =>
    exact isFormula_literal _ ((isFormula_predicate rfl).2 ((isFormula_predicate rfl).1 hf))
  | not _ ih => exact ih (((isFormula_connective rfl).1 hf).2 _ (by simp))
  | @conj args sign _ ih | @disj args sign _ ih =>
    have hargs := ((isFormula_connective rfl).1 hf).2
    rw [nnf, nnfAll_eq_map]
    cases sign <;> simpa using fun a ha => ih a ha (hargs a ha)
  | @nand s t sign _ _ hs ht | @nor s t sign _ _ hs ht | @implies s t sign _ _ hs ht =>
    have hargs := ((isFormula_connective rfl).1 hf).2
    have hs := hs (hargs s (by simp))
    have ht := ht (hargs t (by simp))
    cases sign <;> simpa [nnf] using ⟨hs, ht⟩
  | @iff s t sign _ _ hs ht | @xor s t sign _ _ hs ht =>
    have hargs := ((isFormula_connective rfl).1 hf).2
    have hs := hs (hargs s (by simp))
    have ht := ht (hargs t (by simp))
    exact (isFormula_connective rfl).2 ⟨rfl, by simp [hs, ht]⟩
  | quant _ ih => exact isFormula_quant.2 (ih (isFormula_quant.1 hf))

/-! ### Argument counts are kept -/

/-- Whatever is a matter of the argument counts and of what the quantifiers bind, part by part,
carries over to the normal form. -/
theorem Signed.carry_nnf {P : Term → Prop}
    (hnode : ∀ {op args}, P (.node op args) ↔ op.takes args.length = true ∧ ∀ a ∈ args, P a)
    (hquant : ∀ {q q' vars body body'}, (P body → P body') → P (.quant q vars body) →
      P (.quant q' vars body')) {t : Term} {sign : Bool} (h : Signed t sign) (ht : P t) :
    P (t.nnf sign) := by
  have hliteral : ∀ {a : Term} (sign : Bool), P a → P (Task.literal a sign) := by
    intro a sign ha
    cases sign
    · exact hnode.2 ⟨rfl, by simpa using ha⟩
    · exact ha
  induction h with
  | atom sign ha => exact nnf_atom ha sign ▸ hliteral sign ht
  | notEquals s t sign => exact hliteral _ (hnode.2 ⟨rfl, (hnode.1 ht).2⟩)
  | not _ ih => exact ih ((hnode.1 ht).2 _ (by simp))
  | @conj args sign _ ih | @disj args sign _ ih =>
    have hargs := (hnode.1 ht).2
    rw [nnf, nnfAll_eq_map, hnode, List.forall_mem_map]
    exact ⟨by cases sign <;> rfl, fun a ha => ih a ha (hargs a ha)⟩
  | @nand s t sign _ _ hs ht' | @nor s t sign _ _ hs ht' | @implies s t sign _ _ hs ht'
  | @iff s t sign _ _ hs ht' | @xor s t sign _ _ hs ht' =>
    have hargs := forall_mem_pair.1 (hnode.1 ht).2
    simp only [nnf, nnfAll_eq_map, List.map_cons, List.map_nil]
    exact hnode.2 ⟨by cases sign <;> rfl, forall_mem_pair.2 ⟨hs hargs.1, ht' hargs.2⟩⟩
  | quant _ ih => exact hquant ih ht

/-- The normal form keeps the argument counts. -/
theorem Signed.keepsArities_nnf {t : Term} {sign : Bool} (h : Signed t sign)
    (hk : t.KeepsArities) : (t.nnf sign).KeepsArities :=
  h.carry_nnf keepsArities_node (fun hbody => by simpa only [keepsArities_quant] using hbody) hk

/-- The normal form of a well-formed formula is well-formed. -/
theorem Signed.wellFormed_nnf {t : Term} {sign : Bool} (h : Signed t sign) (ht : t.WellFormed) :
    (t.nnf sign).WellFormed :=
  h.carry_nnf wellFormed_node
    (fun hbody => by simpa only [wellFormed_quant] using And.imp_right hbody) ht

/-! ### Quantifiers that stand positively -/

/-- Quantifiers stand only below conjunctions, disjunctions and quantifiers. -/
inductive Monotone : Term → Prop
  /-- A formula without quantifiers. -/
  | plain {t : Term} : t.QuantifierFree → Monotone t
  /-- A conjunction. -/
  | conj {args : List Term} : (∀ a ∈ args, Monotone a) → Monotone (.node .and args)
  /-- A disjunction. -/
  | disj {args : List Term} : (∀ a ∈ args, Monotone a) → Monotone (.node .or args)
  /-- A quantifier. -/
  | quant {q : Quantifier} {vars : List Var} {body : Term} :
    Monotone body → Monotone (.quant q vars body)

/-- What stands below a quantifier that stands positively. -/
theorem Monotone.body {q : Quantifier} {vars : List Var} {body : Term}
    (h : Monotone (.quant q vars body)) : body.Monotone := by
  cases h with
  | plain hq => exact absurd hq not_quantifierFree_quant
  | quant hbody => exact hbody

theorem quantifierFree_literal {t : Term} (sign : Bool) (h : t.QuantifierFree) :
    (Task.literal t sign).QuantifierFree := by
  cases sign
  · exact quantifierFree_node.2 (by simpa using h)
  · exact h

/-- No quantifier comes from nowhere. -/
theorem Signed.quantifierFree_nnf {t : Term} {sign : Bool} (h : Signed t sign)
    (hq : t.QuantifierFree) : (t.nnf sign).QuantifierFree := by
  induction h with
  | atom sign ha => exact nnf_atom ha sign ▸ quantifierFree_literal sign hq
  | notEquals s t sign =>
    exact quantifierFree_literal _ (quantifierFree_node.2 (quantifierFree_node.1 hq))
  | not _ ih => exact ih (quantifierFree_node.1 hq _ (by simp))
  | conj _ ih | disj _ ih =>
    simpa [nnf] using fun a ha => ih a ha (quantifierFree_node.1 hq a ha)
  | @nand s t _ _ _ hs ht | @nor s t _ _ _ hs ht | @implies s t _ _ _ hs ht
  | @iff s t _ _ _ hs ht | @xor s t _ _ _ hs ht =>
    have hs := hs (quantifierFree_node.1 hq s (by simp))
    have ht := ht (quantifierFree_node.1 hq t (by simp))
    simpa [nnf] using ⟨hs, ht⟩
  | quant _ _ => exact absurd hq not_quantifierFree_quant

/-- A predicate over objects holds no quantifiers. -/
theorem quantifierFree_predicate {op : Op} {args : List Term} (hop : op.isPredicate = true)
    (hf : (Term.node op args).isFormula = true) : (Term.node op args).QuantifierFree :=
  quantifierFree_node.2 fun a ha => .of_isObject (((isFormula_predicate hop).1 hf).2 a ha)

/-- An atom that is a formula holds no quantifiers. -/
theorem quantifierFree_atom {t : Term} (ha : t.isAtom = true) (hf : t.isFormula = true) :
    t.QuantifierFree := by
  cases t with
  | call f args => exact quantifierFree_call.2 fun a h => .of_isObject (isFormula_call.1 hf a h)
  | node op args => exact quantifierFree_predicate (Bool.and_eq_true_iff.1 ha).1 hf
  | quant q vars body => simp [isAtom] at ha
  | _ => simp [QuantifierFree, isQuant]

/-- Monotone formulas below a conjunction or disjunction, whichever the sign makes it. -/
theorem monotone_junction {op : Op} (hop : op = .and ∨ op = .or) {args : List Term}
    (h : ∀ a ∈ args, Monotone a) : Monotone (.node op args) := by
  rcases hop with rfl | rfl
  · exact .conj h
  · exact .disj h

/-- **The normal form of a formula with open sides is monotone.** -/
theorem Signed.monotone_nnf {t : Term} {sign : Bool} (h : Signed t sign) (hf : t.isFormula = true)
    (ho : t.OpenSides) : (t.nnf sign).Monotone := by
  induction h with
  | atom sign ha =>
    exact nnf_atom ha sign ▸ .plain (quantifierFree_literal sign (quantifierFree_atom ha hf))
  | notEquals s t sign =>
    have hq := quantifierFree_predicate rfl hf
    exact .plain (quantifierFree_literal _ (quantifierFree_node.2 (quantifierFree_node.1 hq)))
  | not _ ih =>
    exact ih (((isFormula_connective rfl).1 hf).2 _ (by simp)) (ho.of_mem_args (by simp [args]))
  | @conj args sign _ ih | @disj args sign _ ih =>
    have hargs : ∀ a ∈ args, Monotone (a.nnf sign) := fun a ha =>
      ih a ha (((isFormula_connective rfl).1 hf).2 a ha) (ho.of_mem_args ha)
    rw [nnf, nnfAll_eq_map]
    exact monotone_junction (by cases sign <;> simp) (List.forall_mem_map.2 hargs)
  | @nand s t sign _ _ hs ht | @nor s t sign _ _ hs ht | @implies s t sign _ _ hs ht =>
    have hargs := ((isFormula_connective rfl).1 hf).2
    have hs := hs (hargs s (by simp)) (ho.of_mem_args (by simp [args]))
    have ht := ht (hargs t (by simp)) (ho.of_mem_args (by simp [args]))
    rw [nnf]
    exact monotone_junction (by cases sign <;> simp) (by simp [hs, ht])
  | @iff s t sign hs ht | @xor s t sign hs ht =>
    -- the sides hold no quantifiers, so nothing depends on how they are joined
    have hsides := ho _ (self_mem_parts _) (by simp [isOp, op?])
    have hs := hs.quantifierFree_nnf (hsides s (by simp [args]))
    have ht := ht.quantifierFree_nnf (hsides t (by simp [args]))
    exact .plain (quantifierFree_node.2 (by simp [hs, ht]))
  | quant _ ih => exact .quant (ih (isFormula_quant.1 hf) (ho.of_mem_args (by simp [args])))

end Term

end ClauseForm
