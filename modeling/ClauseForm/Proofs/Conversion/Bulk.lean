import ClauseForm.Proofs.Conversion.Shape

/-!
# The size of a formula and of its normal form

How large a formula is, is told by its nodes above the arguments of atoms
(`ClauseForm.Term.formulaNodes`). How many clauses its normal form can come to is told
by the *bulk* of that (`ClauseForm.Term.bulk`): its literals, each counted once with its
sign, and the conjunctions, disjunctions and biconditionals above them. Quantifiers
are not counted, since they are taken away before any clause is gathered. The normal
form of a formula is no bulkier than the formula is large
(`ClauseForm.Term.Signed.bulk_nnf_le`).
-/

namespace ClauseForm

/-- Whether the operator stands above formulas in a negation normal form, rather than in a
literal. -/
def Op.isJoint : Op → Bool
  | .and | .or | .iff => true
  | _ => false

namespace Term

/-! ### Sums over a list of terms -/

/-- The sum of what `f` says of each term. -/
def total (f : Term → Nat) : List Term → Nat
  | [] => 0
  | t :: ts => f t + total f ts

section Total

variable {f g : Term → Nat} {t : Term} {ss ts : List Term}

@[simp]
theorem total_nil (f : Term → Nat) : total f [] = 0 := rfl

@[simp]
theorem total_cons (f : Term → Nat) (t : Term) (ts : List Term) :
    total f (t :: ts) = f t + total f ts := rfl

@[simp]
theorem total_zero (ts : List Term) : total (fun _ => 0) ts = 0 := by
  induction ts with
  | nil => rfl
  | cons t ts ih => rw [total_cons, ih]

/-- A sum whose terms depend linearly on those of another one. -/
theorem total_linear (f : Term → Nat) (a b : Nat) (ts : List Term) :
    total (fun t => a * f t + b) ts = a * total f ts + b * ts.length := by
  induction ts with
  | nil => rfl
  | cons t ts ih =>
    rw [total_cons, ih, total_cons, List.length_cons, Nat.mul_add, Nat.mul_add]
    omega

theorem total_mul (f : Term → Nat) (a : Nat) (ts : List Term) :
    total (fun t => a * f t) ts = a * total f ts := by
  simpa using total_linear f a 0 ts

theorem le_total (h : t ∈ ts) : f t ≤ total f ts := by
  induction ts with
  | nil => simp at h
  | cons s ts ih =>
    rw [total_cons]
    rcases List.mem_cons.1 h with rfl | h
    · exact Nat.le_add_right _ _
    · exact Nat.le_trans (ih h) (Nat.le_add_left _ _)

/-- Sums are compared place by place. -/
theorem total_le_of_forall₂ (h : List.Forall₂ (fun s t => f s ≤ g t) ss ts) :
    total f ss ≤ total g ts := by
  induction h with
  | nil => exact Nat.le_refl _
  | cons hd _ ih => exact Nat.add_le_add hd ih

theorem total_le_total (h : ∀ t ∈ ts, f t ≤ g t) : total f ts ≤ total g ts :=
  total_le_of_forall₂ (List.forall₂_same.2 h)

theorem total_congr (h : ∀ t ∈ ts, f t = g t) : total f ts = total g ts :=
  Nat.le_antisymm (total_le_total fun t ht => Nat.le_of_eq (h t ht))
    (total_le_total fun t ht => Nat.le_of_eq (h t ht).symm)

theorem total_map (f : Term → Nat) (g : Term → Term) (ts : List Term) :
    total f (ts.map g) = total (fun t => f (g t)) ts := by
  induction ts with
  | nil => rfl
  | cons t ts ih => rw [List.map_cons, total_cons, total_cons, ih]

end Total

/-! ### Formula nodes -/

mutual

/-- The number of connectives, quantifiers and atoms in a formula, each counted as often as it
occurs. What an atom stands over is not looked into. -/
def formulaNodes : Term → Nat
  | .node op args => if op.isPredicate then 1 else 1 + formulaNodesAll args
  | .quant _ _ body => 1 + formulaNodes body
  | _ => 1

/-- The number of connectives, quantifiers and atoms in several formulas. -/
def formulaNodesAll : List Term → Nat
  | [] => 0
  | t :: ts => formulaNodes t + formulaNodesAll ts

end

theorem formulaNodesAll_eq_total (ts : List Term) : formulaNodesAll ts = total formulaNodes ts := by
  induction ts with
  | nil => rfl
  | cons t ts ih => rw [formulaNodesAll, ih, total_cons]

theorem formulaNodes_connective {op : Op} (h : op.isPredicate = false) (args : List Term) :
    (Term.node op args).formulaNodes = 1 + total formulaNodes args := by
  rw [formulaNodes, if_neg (by simp [h]), formulaNodesAll_eq_total]

theorem formulaNodes_pos (t : Term) : 0 < t.formulaNodes := by
  cases t with
  | node op args =>
    rw [formulaNodes]
    split
    · exact Nat.one_pos
    · omega
  | quant q vars body =>
    rw [formulaNodes]
    omega
  | _ => exact Nat.one_pos

/-! ### The bulk of a normal form -/

mutual

/-- The number of literals, conjunctions, disjunctions and biconditionals in a normal form. -/
def bulk : Term → Nat
  | .node op args => if op.isJoint then 1 + bulkAll args else 1
  | .quant _ _ body => bulk body
  | _ => 1

/-- The number of literals, conjunctions, disjunctions and biconditionals in several normal
forms. -/
def bulkAll : List Term → Nat
  | [] => 0
  | t :: ts => bulk t + bulkAll ts

end

theorem bulkAll_eq_total (ts : List Term) : bulkAll ts = total bulk ts := by
  induction ts with
  | nil => rfl
  | cons t ts ih => rw [bulkAll, ih, total_cons]

theorem bulk_joint {op : Op} (h : op.isJoint = true) (args : List Term) :
    (Term.node op args).bulk = 1 + total bulk args := by
  rw [bulk, if_pos h, bulkAll_eq_total]

/-- What is not joined counts as one. -/
theorem bulk_node_of_not_isJoint {op : Op} (h : op.isJoint = false) (args : List Term) :
    (Term.node op args).bulk = 1 := by
  rw [bulk, if_neg (by simp [h])]

theorem bulk_of_isAtom {t : Term} (h : t.isAtom = true) : t.bulk = 1 := by
  cases t with
  | node op args =>
    refine bulk_node_of_not_isJoint ?_ args
    cases op <;> simp_all [isAtom, Op.isPredicate, Op.isJoint]
  | quant q vars body => simp [isAtom] at h
  | _ => rfl

theorem bulk_literal {t : Term} (h : t.isAtom = true) (sign : Bool) :
    (Task.literal t sign).bulk = 1 := by
  cases sign
  · exact bulk_node_of_not_isJoint rfl [t]
  · exact bulk_of_isAtom h

theorem bulk_of_isLiteral {t : Term} (h : t.isLiteral = true) : t.bulk = 1 := by
  obtain ⟨a, sign, ha, rfl⟩ := exists_of_isLiteral h
  exact bulk_literal ha sign

/-- A junction of normal forms, whichever the sign makes it. -/
theorem bulk_junction {op : Op} (hop : op = .and ∨ op = .or) (args : List Term) :
    (Term.node op args).bulk = 1 + total bulk args := by
  refine bulk_joint ?_ args
  rcases hop with rfl | rfl
  · rfl
  · rfl

/-- **The normal form of a formula is no bulkier than the formula is large.** -/
theorem Signed.bulk_nnf_le {t : Term} {sign : Bool} (h : Signed t sign) :
    (t.nnf sign).bulk ≤ t.formulaNodes := by
  induction h with
  | @atom t sign ha =>
    rw [nnf_atom ha, bulk_literal ha]
    exact t.formulaNodes_pos
  | notEquals s t sign =>
    rw [nnf, bulk_literal rfl]
    exact formulaNodes_pos _
  | not _ ih =>
    rw [nnf, formulaNodes_connective rfl, total_cons]
    omega
  | @conj args sign _ ih | @disj args sign _ ih =>
    rw [nnf, nnfAll_eq_map, bulk_junction (by cases sign <;> simp), total_map,
      formulaNodes_connective rfl]
    exact Nat.add_le_add_left (total_le_total ih) 1
  | @nand s t sign _ _ hs ht | @nor s t sign _ _ hs ht =>
    rw [nnf, nnfAll_eq_map, bulk_junction (by cases sign <;> simp), formulaNodes_connective rfl]
    simp only [List.map_cons, List.map_nil, total_cons, total_nil]
    omega
  | @implies s t sign _ _ hs ht =>
    rw [nnf, bulk_junction (by cases sign <;> simp), formulaNodes_connective rfl]
    simp only [total_cons, total_nil]
    omega
  | iff _ _ hs ht | xor _ _ hs ht =>
    rw [nnf, bulk_joint rfl, formulaNodes_connective rfl]
    simp only [total_cons, total_nil]
    omega
  | quant _ ih =>
    rw [nnf, bulk, formulaNodes]
    omega

/-- The normal form of literals under conjunctions and disjunctions is as bulky as they are,
whatever the sign. -/
theorem Junctive.bulk_nnf {p : Term → Prop} {t : Term} (h : Junctive p t) (sign : Bool) :
    (t.nnf sign).bulk = t.bulk := by
  induction h with
  | literal hl _ => rw [bulk_of_isLiteral (isLiteral_nnf hl sign), bulk_of_isLiteral hl]
  | conj _ ih | disj _ ih =>
    rw [Term.nnf, nnfAll_eq_map, bulk_junction (by cases sign <;> simp), total_map, bulk_joint rfl,
      total_congr ih]

end Term

end ClauseForm
