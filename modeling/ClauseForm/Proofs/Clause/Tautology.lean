import ClauseForm.Clause
import ClauseForm.Proofs.Conversion.Shape

/-!
# Clauses that are seen to be true

A clause is seen to be true if one of its literals is a true constant, or if it holds a
term together with its negation (`ClauseForm.Term.SeenTrue`). For literals in the wide
sense (`ClauseForm.Term.isWideLiteral`), that is what the search finds
(`ClauseForm.Term.anyTrueOrComplementary_eq`), though it compares each literal only with
those behind it; and the literals that are taken out of a clause are `false` and `~true`
(`ClauseForm.Term.dropFalse_eq`).

Nothing is missed: a clause that is not seen to be true is false under some assignment of
truth values to its atoms (`ClauseForm.isTautology_iff_forall_assignments`), namely the
one that makes an atom true if the clause holds its negation.
-/

namespace ClauseForm

namespace Term

variable {a l t : Term} {ls : List Term} {sign : Bool}

/-! ### Literals in the wide sense -/

/-- Whether `~` stands at the top of a term at most once. The term below it, or the term itself if
there is none, counts as an atom here, whatever it is made of. -/
def isWideLiteral : Term → Bool
  | .node .not [t] => !t.isOp .not
  | t => !t.isOp .not

/-- A literal in the wide sense is an atom with a sign. -/
theorem exists_of_isWideLiteral (h : t.isWideLiteral = true) :
    ∃ a sign, a.isOp .not = false ∧ t = Task.literal a sign := by
  unfold isWideLiteral at h
  split at h
  · exact ⟨_, false, by simpa using h, rfl⟩
  · exact ⟨t, true, by simpa using h, rfl⟩

theorem isWideLiteral_of_isLiteral (h : t.isLiteral = true) : t.isWideLiteral = true := by
  unfold isLiteral at h
  split at h
  · rw [isWideLiteral, isOp_of_isAtom h rfl]
    rfl
  · rename_i hne
    rw [isWideLiteral]
    · rw [isOp_of_isAtom h rfl]
      rfl
    · exact hne

/-- The truth value seen in a literal is that of the constant that it consists of. -/
theorem exists_literalValue (h : l.isWideLiteral = true) :
    ∃ value, l.literalValue = .ok value ∧
      ∀ b, value = some b ↔ l = .bool b ∨ l = (Term.bool !b).neg := by
  have hatom : ∀ a : Term, a.isOp .not = false →
      ∃ value, a.literalValue = .ok value ∧ ∀ b, value = some b ↔ a = .bool b := by
    intro a ha
    cases a with
    | bool c => exact ⟨some c, rfl, fun b => by simp⟩
    | node op args =>
      have hop : op ≠ .not := by simpa [isOp, op?] using ha
      exact ⟨none, by cases op <;> simp_all [literalValue], fun b => by simp⟩
    | _ => exact ⟨none, rfl, fun b => by simp⟩
  obtain ⟨a, sign, ha, rfl⟩ := exists_of_isWideLiteral h
  obtain ⟨value, hvalue, hbool⟩ := hatom a ha
  cases sign
  · refine ⟨value.map (!·), ?_, fun b => ?_⟩
    · change literalValue (.node .not [a]) = _
      rw [literalValue, hvalue]
      rfl
    · have hflip : value.map (!·) = some b ↔ value = some !b := by
        cases value <;> simp [Bool.not_eq_eq_eq_not]
      rw [hflip, hbool]
      simp [Task.literal, neg]
  · refine ⟨value, hvalue, fun b => (hbool b).trans (or_iff_left ?_).symm⟩
    rintro rfl
    cases ha

/-- The complement of a literal is the literal that is its negation, or of which it is the
negation. -/
theorem exists_complement (h : l.isWideLiteral = true) :
    ∃ c, l.complement = .ok c ∧
      ∀ m : Term, m.isWideLiteral = true → (m = c ↔ m = l.neg ∨ l = m.neg) := by
  obtain ⟨a, sign, ha, rfl⟩ := exists_of_isWideLiteral h
  cases sign
  · refine ⟨a, rfl, fun m hm => ?_⟩
    have hne : m ≠ (Task.literal a false).neg := by
      rintro rfl
      cases hm
    rw [or_iff_right hne]
    simp [Task.literal, neg, eq_comm]
  · refine ⟨a.neg, ?_, fun m _ => (or_iff_left ?_).symm⟩
    · cases a with
      | node op args =>
        have hop : op ≠ .not := by simpa [isOp, op?] using ha
        cases op <;> simp_all [Task.literal, complement]
      | _ => rfl
    · rintro rfl
      cases ha

/-! ### What is seen in a clause -/

/-- Among the literals is a true constant, or one literal together with its negation. -/
def SeenTrue (ls : List Term) : Prop :=
  .bool true ∈ ls ∨ (Term.bool false).neg ∈ ls ∨ ∃ t ∈ ls, t.neg ∈ ls

instance (ls : List Term) : Decidable (SeenTrue ls) :=
  inferInstanceAs (Decidable (_ ∨ _ ∨ _))

theorem seenTrue_cons : SeenTrue (l :: ls) ↔
    (l = .bool true ∨ l = (Term.bool false).neg) ∨ (∃ m ∈ ls, m = l.neg ∨ l = m.neg) ∨
      SeenTrue ls := by
  have hself : l.neg ≠ l := fun h => by
    have hsize := congrArg sizeOf h
    simp only [neg, node.sizeOf_spec, List.cons.sizeOf_spec] at hsize
    omega
  simp only [SeenTrue, List.mem_cons]
  grind

/-- **The search finds exactly what is to be seen**, in whatever order the literals stand. -/
theorem anyTrueOrComplementary_eq (h : ∀ l ∈ ls, l.isWideLiteral = true) :
    anyTrueOrComplementary ls = .ok (decide (SeenTrue ls)) := by
  induction ls with
  | nil => rfl
  | cons l ls ih =>
    rw [List.forall_mem_cons] at h
    obtain ⟨value, hvalue, hconstant⟩ := exists_literalValue h.1
    obtain ⟨c, hc, hcomplement⟩ := exists_complement h.1
    have hmem : c ∈ ls ↔ ∃ m ∈ ls, m = l.neg ∨ l = m.neg := by
      constructor
      · exact fun hc => ⟨c, hc, (hcomplement c (h.2 c hc)).1 rfl⟩
      · rintro ⟨m, hm, hlm⟩
        exact (hcomplement m (h.2 m hm)).2 hlm ▸ hm
    have hrun : anyTrueOrComplementary (l :: ls) = if value = some true then .ok true
        else if c ∈ ls then .ok true else .ok (decide (SeenTrue ls)) := by
      rw [anyTrueOrComplementary, hvalue, hc, ih h.2]
      rfl
    simp only [hrun, seenTrue_cons, hconstant, hmem]
    split
    · simp_all
    · split <;> simp_all

/-- Whether a literal is `false` or `~true`. -/
def isFalsity (l : Term) : Bool :=
  l == .bool false || l == (Term.bool true).neg

/-- **The literals `false` and `~true` are dropped**, and no others. -/
theorem dropFalse_eq (h : ∀ l ∈ ls, l.isWideLiteral = true) :
    dropFalse ls = .ok (ls.filter (!·.isFalsity)) := by
  induction ls with
  | nil => rfl
  | cons l ls ih =>
    rw [List.forall_mem_cons] at h
    obtain ⟨value, hvalue, hconstant⟩ := exists_literalValue h.1
    have hfalse : value = some false ↔ l.isFalsity = true := by
      rw [hconstant, isFalsity, Bool.or_eq_true, beq_iff_eq, beq_iff_eq]
      rfl
    have hrun : dropFalse (l :: ls) = .ok (if value = some false then ls.filter (!·.isFalsity)
        else l :: ls.filter (!·.isFalsity)) := by
      rw [dropFalse, hvalue, ih h.2]
      rfl
    rw [hrun, List.filter_cons]
    simp only [hfalse]
    cases l.isFalsity <;> rfl

/-! ### Assignments of truth values -/

/-- Whether a literal is true when the atoms have the truth values given. -/
def isTrueUnder (value : Term → Bool) : Term → Bool
  | .node .not [t] => !value t
  | t => value t

theorem isTrueUnder_literal (value : Term → Bool) (ha : a.isOp .not = false) :
    (Task.literal a sign).isTrueUnder value = (value a == sign) := by
  cases sign
  · exact (beq_false _).symm
  · rw [beq_true]
    change a.isTrueUnder value = value a
    unfold isTrueUnder
    split
    · cases ha
    · rfl

/-- The assignment under which an atom is true if its negation is among the literals. Truth values
are what they are. -/
def falsifying (ls : List Term) : Term → Bool
  | .bool b => b
  | t => decide (t.neg ∈ ls)

/-- **What is not seen to be true is false under some assignment.** -/
theorem isTrueUnder_falsifying (hls : ¬SeenTrue ls) (hl : l ∈ ls) (hw : l.isWideLiteral = true) :
    l.isTrueUnder (falsifying ls) = false := by
  obtain ⟨a, sign, ha, rfl⟩ := exists_of_isWideLiteral hw
  simp only [SeenTrue, not_or, not_exists, not_and] at hls
  obtain ⟨htrue, hfalse, hpair⟩ := hls
  rw [isTrueUnder_literal _ ha, beq_eq_false_iff_ne]
  have hvalue : falsifying ls a = decide (a.neg ∈ ls) ∨ ∃ b, a = .bool b := by
    cases a <;> simp [falsifying]
  rcases hvalue with hvalue | ⟨b, rfl⟩
  · rw [hvalue]
    cases sign
    · simpa [Task.literal] using hl
    · simpa [Task.literal] using hpair _ hl
  · -- a truth value stands there with the sign that makes it false
    rintro rfl
    cases b
    · exact hfalse hl
    · exact htrue hl

/-- **What is seen to be true is true under every assignment**, and nothing else is. -/
theorem seenTrue_iff_forall_assignments (h : ∀ l ∈ ls, l.isWideLiteral = true) :
    SeenTrue ls ↔ ∀ value : Term → Bool, (∀ b, value (.bool b) = b) →
      ∃ l ∈ ls, l.isTrueUnder value = true := by
  constructor
  · intro hls value hbool
    rcases hls with htrue | hfalse | ⟨t, ht, hneg⟩
    · exact ⟨_, htrue, hbool true⟩
    · refine ⟨_, hfalse, ?_⟩
      change (!value (.bool false)) = true
      rw [hbool]
      rfl
    · obtain ⟨a, sign, ha, rfl⟩ := exists_of_isWideLiteral (h t ht)
      cases sign
      · cases h _ hneg
      cases hvalue : value a
      · exact ⟨a.neg, hneg, by simp [neg, isTrueUnder, hvalue]⟩
      · refine ⟨_, ht, ?_⟩
        rw [isTrueUnder_literal value ha, hvalue]
        rfl
  · intro hall
    by_contra hls
    obtain ⟨l, hl, htrue⟩ := hall (falsifying ls) fun _ => rfl
    rw [isTrueUnder_falsifying hls hl (h l hl)] at htrue
    cases htrue

end Term

namespace Clause

variable {c : Clause}

theorem isTautology_eq (h : ∀ l ∈ c.literals, l.isWideLiteral = true) :
    c.isTautology = .ok (decide (Term.SeenTrue c.literals)) :=
  Term.anyTrueOrComplementary_eq h

theorem withoutFalse_eq (h : ∀ l ∈ c.literals, l.isWideLiteral = true) :
    c.withoutFalse = .ok ⟨c.literals.filter (!·.isFalsity)⟩ := by
  rw [withoutFalse, Term.dropFalse_eq h]
  rfl

end Clause

open Term

/-- **The test for tautologies is exact.** For a clause in which every literal is an atom or the
negation of one, it comes to an answer; and the answer is that the clause is true exactly if some
literal is, whatever truth values the atoms are given, where different atoms are independent of each
other and truth values are what they are. So it is the same for the same literals in another
order, and however often each of them stands there. -/
theorem isTautology_iff_forall_assignments {c : Clause}
    (h : ∀ l ∈ c.literals, l.isWideLiteral = true) :
    ∃ answer, c.isTautology = .ok answer ∧
      (answer = true ↔ ∀ value : Term → Bool, (∀ b, value (.bool b) = b) →
        ∃ l ∈ c.literals, l.isTrueUnder value = true) ∧
      ∀ d : Clause, (∀ l, l ∈ d.literals ↔ l ∈ c.literals) → d.isTautology = .ok answer := by
  refine ⟨_, Clause.isTautology_eq h, ?_, fun d hd => ?_⟩
  · rw [decide_eq_true_iff, seenTrue_iff_forall_assignments h]
  · have hsame : SeenTrue d.literals ↔ SeenTrue c.literals := by
      simp only [SeenTrue, hd]
    rw [Clause.isTautology_eq fun l hl => h l ((hd l).1 hl)]
    simp only [hsame]

/-- The clause `~p | q = r | false | p`, in which the negation stands ahead of its atom. -/
def pairExample : Clause :=
  ⟨[(Term.const ⟨0, .declared⟩).neg, .eq (.const ⟨1, .declared⟩) (.const ⟨2, .declared⟩),
    .bool false, .const ⟨0, .declared⟩]⟩

theorem isTautology_iff_forall_assignments_pairExample :
    (∀ l ∈ pairExample.literals, l.isWideLiteral = true) ∧
      ∃ answer, pairExample.isTautology = .ok answer ∧
        (answer = true ↔ ∀ value : Term → Bool, (∀ b, value (.bool b) = b) →
          ∃ l ∈ pairExample.literals, l.isTrueUnder value = true) ∧
        ∀ d : Clause, (∀ l, l ∈ d.literals ↔ l ∈ pairExample.literals) →
          d.isTautology = .ok answer :=
  ⟨by decide, isTautology_iff_forall_assignments (by decide)⟩

end ClauseForm
