import ClauseForm.Proofs.Conversion.Budget
import ClauseForm.Proofs.Conversion.Distribution
import ClauseForm.Proofs.Conversion.Gathering
import ClauseForm.Proofs.Conversion.Settled

/-!
# The stages of a conversion on a budget

What each stage of a conversion comes to, if the definitions that go their own way keep
to what is expected of them (`ClauseForm.ConvertM.NamesSides`,
`ClauseForm.ConvertM.NamesConjunctions`). Nothing is said about meaning, but every literal
is seen to, and every clause is paid for:

* a formula of bulk `n` has `19 * n` to spend on writing its biconditionals out, and of
  that leaves `2 * m + 5` if the bulk of the result is `m`, which is what naming it as the
  side of another biconditional costs (`ClauseForm.ConvertM.ensures_expandIffs_mixed`);
* the bulk of the result pays for raising its conjunctions, and leaves one for every
  disjunction that then stands below them
  (`ClauseForm.ConvertM.ensures_raiseAnds_spends`);
* so each of these can be gathered as a clause
  (`ClauseForm.ConvertM.ensures_gatherClauses_spends`).
-/

namespace ClauseForm

namespace ConvertM

open Conversion Term

variable {counted : Bool} {p q P : Term → Prop} {side conj : Term → ConvertM Unit}
variable {s : Conversion} {t : Term} {args : List Term}

/-! ### Definitions -/

/-- Defining the names of sides of a kind costs no more than the two normal forms of the side, and
what they are put together with. -/
def NamesSides (counted : Bool) (p P : Term → Prop) (side : Term → ConvertM Unit) : Prop :=
  ∀ {t atom : Term} {s : Conversion}, P t → atom.isAtom = true → p atom → s.journal = none →
    Ensures (side (sideDefinition t atom)) s fun _ s' => Spends counted (2 * t.bulk + 5) 0 s s'

/-- Defining the name of a conjunction costs as much as gathering the clauses of it. -/
def NamesConjunctions (counted : Bool) (p : Term → Prop) (conj : Term → ConvertM Unit) : Prop :=
  ∀ {c atom : Term} {s : Conversion}, c.isOp .and = true → Raised p c → atom.isAtom = true →
    p atom → s.journal = none →
    Ensures (conj (.imp atom c)) s fun _ s' => Spends counted (c.leaves .and).length 0 s s'

/-- A name costs what defining it costs. -/
theorem ensures_named_spends (hp : LiteralClass p) {define : Term → ConvertM Unit} {b : Nat}
    (definition : Term → Term) (t : Term) (hs : s.journal = none)
    (h : ∀ {atom : Term} {s : Conversion}, atom.isAtom = true → p atom → s.journal = none →
      Ensures (define (definition atom)) s fun _ s' => Spends counted b 0 s s') :
    Ensures (do let atom ← nameFor t; define (definition atom); return atom) s fun atom s' =>
      (atom.isAtom = true ∧ p atom) ∧ Spends counted b 0 s s' := by
  have hname : Ensures (nameFor t) s fun atom s' =>
      (atom.isAtom = true ∧ p atom) ∧ Spends counted 0 0 s s' := by
    refine (ensures_newDefinition s).bind fun f s₁ hf => ?_
    have hspends : Spends counted 0 0 s s₁ := .of_eq hf.grows.journal hf.clauses (Nat.le_refl 0)
    refine .bind_report _ (hspends.quiet hs) ?_
    exact .pure ⟨⟨f.isAtom_appliedTo _, hp.name f _⟩, hspends⟩
  refine hname.bind ?_
  rintro atom s₁ ⟨⟨ha, hpa⟩, hspends⟩
  refine (h ha hpa (hspends.quiet hs)).bind fun _ s₂ hdefine => ?_
  exact .pure ⟨⟨ha, hpa⟩, hspends.trans hdefine (by omega)⟩

/-! ### Writing biconditionals out -/

/-- A side of a biconditional becomes elementary: it was, or its name is. -/
theorem ensures_nameSide_spends (hp : LiteralClass p) (hside : NamesSides counted p P side)
    (hP : P t) (ht : IsSide p t) (hs : s.journal = none) :
    Ensures (nameSide side t) s fun l s' =>
      Elementary p l ∧ Spends counted (2 * t.bulk + 5) 0 s s' := by
  obtain ⟨core, hstrip, helem⟩ := ht
  unfold nameSide
  refine Ensures.bind_ofExcept hstrip ?_
  split
  · refine (ensures_named_spends hp (sideDefinition t) t hs (hside hP)).mono ?_
    rintro l s' ⟨⟨ha, hpl⟩, hspends⟩
    exact ⟨hp.elementary (isLiteral_literal ha true) hpl, hspends⟩
  · rename_i hcore
    exact .pure ⟨helem (by simpa using hcore), .refl (Nat.zero_le _) s⟩

/-- What a biconditional of elementary sides is written out as. -/
theorem expandIff_eq_pure {l r : Term} (hl : Elementary p l) (hr : Elementary p r) :
    expandIff l r = pure ((sideDefinition l r).nnf true) := by
  have hk : (sideDefinition l r).KeepsArities := by
    simp [sideDefinition, Term.conj, imp, keepsArities_node, hl.keepsArities, hr.keepsArities,
      Op.takes, Op.arity]
  change ofExcept ((sideDefinition l r).lowerNot true) = _
  rw [lowerNot_eq_nnf hk]
  rfl

/-- Elementary sides make a small formula. -/
theorem bulk_sideDefinition {l r : Term} (hl : Elementary p l) (hr : Elementary p r) :
    ((sideDefinition l r).nnf true).bulk = 7 := by
  rw [nnf_sideDefinition]
  have hbulk : ∀ {t : Term}, Elementary p t → ∀ sign, (t.nnf sign).bulk = 1 := fun h sign =>
    bulk_of_isLiteral (h.literal sign).1
  simp only [bulk_junction (.inl rfl), bulk_junction (.inr rfl), total_cons, total_nil, hbulk hl,
    hbulk hr]

/-- **A biconditional is written out**, once its sides are, if those leave enough for their
names. -/
theorem ensures_expandIffs_iff (hp : LiteralClass p) (hside : NamesSides counted p P side)
    (budget : Term → Nat) {a b : Term} (hs : s.journal = none)
    (hsides : ∀ t ∈ [a, b], ∀ s : Conversion, s.journal = none →
      Ensures (expandIffs side t) s fun t' s' =>
        (P t' ∧ IsSide p t') ∧ Spends counted (budget t) (2 * t'.bulk + 5) s s') :
    Ensures (expandIffs side (.node .iff [a, b])) s fun t s' =>
      (Junctive p t ∧ t.bulk = 7) ∧ Spends counted (budget a + budget b) 0 s s' := by
  obtain ⟨ha, hb⟩ := forall_mem_pair.1 hsides
  rw [expandIffs, expandIffsAll, expandIffsAll, expandIffsAll]
  simp only [bind_assoc, pure_bind, if_true]
  refine (ha s hs).bind ?_
  rintro a' s₁ ⟨⟨haP, haside⟩, haspends⟩
  refine (hb s₁ (haspends.quiet hs)).bind ?_
  rintro b' s₂ ⟨⟨hbP, hbside⟩, hbspends⟩
  -- what the sides leave pays for one name after the other
  have hargs : Spends counted (budget a + budget b) (2 * a'.bulk + 5 + (2 * b'.bulk + 5)) s s₂ :=
    haspends.trans hbspends (by omega)
  refine (ensures_nameSide_spends hp hside haP haside (hargs.quiet hs)).bind ?_
  rintro l s₃ ⟨hl, hlspends⟩
  have hleft : Spends counted (budget a + budget b) (2 * b'.bulk + 5) s s₃ :=
    hargs.trans hlspends (by omega)
  refine (ensures_nameSide_spends hp hside hbP hbside (hleft.quiet hs)).bind ?_
  rintro r s₄ ⟨hr, hrspends⟩
  rw [expandIff_eq_pure hl hr]
  refine .pure ⟨⟨?_, bulk_sideDefinition hl hr⟩, hleft.trans hrspends (by omega)⟩
  exact junctive_sideDefinition (fun sign => .literal (hl.literal sign).1 (hl.literal sign).2)
    fun sign => .literal (hr.literal sign).1 (hr.literal sign).2

/-- **Literals under conjunctions, disjunctions and biconditionals lose the biconditionals**, if the
literals themselves become literals of the class at no cost. -/
theorem ensures_expandIffs_mixed (hp : LiteralClass p) (hside : NamesSides counted p P side)
    (hP : ∀ {t}, Junctive p t → P t)
    (hliteral : ∀ {l : Term} {s : Conversion}, l.isLiteral = true → q l → s.journal = none →
      Ensures (expandIffs side l) s fun l' s' =>
        (l'.isLiteral = true ∧ p l') ∧ Spends counted 0 0 s s')
    (ht : Mixed q t) (hs : s.journal = none) :
    Ensures (expandIffs side t) s fun t' s' =>
      Junctive p t' ∧ Spends counted (19 * t.bulk) (2 * t'.bulk + 5) s s' := by
  induction ht generalizing s with
  | @literal t hl hq =>
    refine (hliteral hl hq hs).mono ?_
    rintro l' s' ⟨⟨hl', hpl⟩, hspends⟩
    rw [bulk_of_isLiteral hl, bulk_of_isLiteral hl']
    exact ⟨.literal hl' hpl, hspends.mono (by omega)⟩
  | @conj args _ ih | @disj args _ ih =>
    rw [expandIffs, expandIffsAll_eq_mapM]
    refine (Ensures.mapM_spends (b := fun t => 19 * t.bulk) (r := fun t => 2 * t.bulk + 5) hs
      fun a ha s hs => ih a ha hs).bind ?_
    rintro args' s' ⟨hargs, hspends⟩
    have hj : ∀ a ∈ args', Junctive p a := forall_mem_right_of_forall₂ hargs id
    refine .pure ⟨by first | exact .conj hj | exact .disj hj, hspends.mono ?_⟩
    rw [total_linear, total_mul, bulk_joint rfl, bulk_joint rfl]
    omega
  | @iff a b _ _ iha ihb =>
    refine (ensures_expandIffs_iff hp hside (fun t => 19 * t.bulk) hs
      (forall_mem_pair.2 ⟨fun s hs => (iha hs).mono ?_, fun s hs => (ihb hs).mono ?_⟩)).mono ?_
    · exact fun t' s' h => ⟨⟨hP h.1, hp.isSide_of_junctive h.1⟩, h.2⟩
    · exact fun t' s' h => ⟨⟨hP h.1, hp.isSide_of_junctive h.1⟩, h.2⟩
    · rintro t' s' ⟨⟨hj, hbulk⟩, hspends⟩
      refine ⟨hj, hspends.mono ?_⟩
      rw [hbulk, bulk_joint rfl, total_cons, total_cons, total_nil]
      omega

/-! ### Biconditionals inside atoms -/

/-- What is left of a term once its biconditionals are written out is settled; and it is an atom or
a literal if the term was. -/
structure Settles (t t' : Term) : Prop where
  settled : t'.Settled
  isAtom : t.isAtom = true → t'.isAtom = true
  isLiteral : t.isLiteral = true → t'.isLiteral = true

/-- An operator other than `<=>` over arguments in which the biconditionals are written out. -/
theorem Settles.node {op : Op} {args' : List Term} (htakes : op.takes args.length = true)
    (hop : op ≠ .iff) (h : List.Forall₂ Settles args args') :
    Settles (.node op args) (.node op args') := by
  refine ⟨settled_node.2 ⟨h.length_eq ▸ htakes, hop,
    forall_mem_right_of_forall₂ h fun ha => ha.settled⟩, id, fun hl => ?_⟩
  obtain ⟨a, sign, ha, heq⟩ := exists_of_isLiteral hl
  cases sign
  · obtain ⟨rfl, rfl⟩ : op = .not ∧ args = [a] := by simpa [Task.literal, neg] using heq
    obtain ⟨a', _, hfirst, hnil, rfl⟩ := List.forall₂_cons_left_iff.1 h
    obtain rfl := List.forall₂_nil_left_iff.1 hnil
    exact isLiteral_literal (hfirst.isAtom ha) false
  · obtain rfl : Term.node op args = a := heq
    exact isLiteral_literal (a := .node op args') ha true

/-- **Biconditionals inside atoms are written out as well**, and what stood there is settled. -/
theorem ensures_expandIffs_settles (hside : NamesSides false Settled Settled side)
    (hq : t.QuantifierFree) (hk : t.KeepsArities) (hs : s.journal = none) :
    Ensures (expandIffs side t) s fun t' s' => Settles t t' ∧ Spends false 0 0 s s' := by
  have hleaf : ∀ {t : Term} {s : Conversion}, t.op? = none → t.QuantifierFree → t.KeepsArities →
      Ensures (expandIffs side t) s fun t' s' => Settles t t' ∧ Spends false 0 0 s s' := by
    intro t s hop hq hk
    rw [expandIffs_of_expanded side (.leaf hop)]
    exact .pure ⟨⟨⟨hq, hk, .leaf hop⟩, id, id⟩, .refl (Nat.le_refl 0) s⟩
  induction t using Term.induct generalizing s with
  | node op args ih =>
    obtain ⟨htakes, hks⟩ := keepsArities_node.1 hk
    have hqs := quantifierFree_node.1 hq
    by_cases hop : op = .iff
    · subst hop
      obtain ⟨a, b, rfl⟩ := Op.exists_of_takes_two rfl htakes
      refine (ensures_expandIffs_iff literalClass_settled hside (fun _ => 0) hs
        fun t ht s hs => (ih t ht (hqs t ht) (hks t ht) hs).mono ?_).mono ?_
      · exact fun t' s' h => ⟨⟨h.1.settled, h.1.settled.isSide⟩, h.2.uncounted⟩
      · rintro t' s' ⟨⟨hj, -⟩, hspends⟩
        refine ⟨⟨literalClass_settled.settled_of_junctive hj, ?_, ?_⟩, hspends.uncounted⟩
        · simp [isAtom, Op.isPredicate]
        · simp [Term.isLiteral, isAtom, Op.isPredicate]
    · rw [expandIffs, expandIffsAll_eq_mapM]
      refine (Ensures.mapM_spends (b := fun _ => 0) (r := fun _ => 0) hs fun a ha s hs =>
        ih a ha (hqs a ha) (hks a ha) hs).bind ?_
      rintro args' s' ⟨hargs, hspends⟩
      rw [if_neg hop]
      exact .pure ⟨.node htakes hop hargs, hspends.uncounted⟩
  | _ => exact hleaf rfl hq hk

/-! ### Raising conjunctions -/

/-- A conjunction is replaced by its name. -/
theorem ensures_nameConjunction_spends (hp : LiteralClass p)
    (hconj : NamesConjunctions counted p conj) (ht : Raised p t) (hs : s.journal = none) :
    Ensures (nameConjunction conj t) s fun t' s' =>
      Disjunctive p t' ∧ Spends counted (t.leaves .and).length 0 s s' := by
  unfold nameConjunction
  split
  · rename_i hand
    refine (ensures_named_spends hp (imp · t) t hs (hconj hand ht)).mono ?_
    rintro atom s' ⟨⟨ha, hpa⟩, hspends⟩
    exact ⟨.literal (isLiteral_literal ha true) hpa, hspends⟩
  · rename_i hand
    exact .pure ⟨ht.disjunctive (by simpa using hand), .refl (Nat.zero_le _) s⟩

/-- A disjunction leaves one for each clause that it comes to. -/
theorem ensures_disjoin_spends (hp : LiteralClass p) (hconj : NamesConjunctions counted p conj)
    (hargs : ∀ a ∈ args, Raised p a) (hs : s.journal = none) :
    Ensures (disjoin conj args) s fun t s' => Raised p t ∧
      Spends counted (1 + total (fun a => (a.leaves .and).length) args) (t.leaves .and).length
        s s' := by
  rcases isOp_and_cases args with hnone | ⟨hcount, i, hi⟩ | hcount
  · have hd : Disjunctive p (.node .or args) :=
      .disj fun a ha => (hargs a ha).disjunctive (hnone a ha)
    rw [disjoin_eq_pure conj hnone]
    refine .pure ⟨.clause hd, .refl ?_ s⟩
    rw [disj, leaves_of_isOp_false hd.isOp_and, List.length_singleton]
    exact Nat.le_add_right 1 _
  · rw [disjoin_eq_distribute conj hcount hi]
    refine .pure ⟨raised_distribute (hargs _ (List.get_mem args i))
      (fun a ha hand => (hargs a ha).disjunctive hand)
      (fun j hj => isOp_and_of_countP hcount hi hj), .refl ?_ s⟩
    rw [length_leaves_distribute]
    have hle := le_total (f := fun a => (a.leaves .and).length) (List.get_mem args i)
    omega
  · rw [disjoin_eq_mapM conj hcount]
    refine (Ensures.mapM_spends (b := fun a => (a.leaves .and).length) (r := fun _ => 0) hs
      fun a ha s hs => ensures_nameConjunction_spends hp hconj (hargs a ha) hs).bind ?_
    rintro args' s' ⟨hnamed, hspends⟩
    have hd : Disjunctive p (.node .or args') := .disj (forall_mem_right_of_forall₂ hnamed id)
    refine .pure ⟨.clause hd, hspends.mono ?_⟩
    rw [disj, leaves_of_isOp_false hd.isOp_and, List.length_singleton, total_zero]
    omega

theorem length_leaves_conj (args : List Term) :
    ((Term.node .and args).leaves .and).length = total (fun a => (a.leaves .and).length) args := by
  rw [leaves_node_self]
  induction args with
  | nil => rfl
  | cons a args ih => rw [List.flatMap_cons, List.length_append, ih, total_cons]

/-- **Raising the conjunctions costs the bulk of the formula**, and leaves one for each clause. -/
theorem ensures_raiseAnds_spends (hp : LiteralClass p) (hconj : NamesConjunctions counted p conj)
    (ht : Junctive p t) (hs : s.journal = none) :
    Ensures (raiseAnds conj t) s fun t' s' =>
      Raised p t' ∧ Spends counted t.bulk (t'.leaves .and).length s s' := by
  induction ht generalizing s with
  | @literal t hl hpt =>
    rw [raiseAnds_of_isLiteral conj hl]
    refine .pure ⟨.clause (.literal hl hpt), .refl ?_ s⟩
    rw [leaves_of_isOp_false (isOp_of_isLiteral hl rfl (by simp)), bulk_of_isLiteral hl]
    exact Nat.le_refl 1
  | @conj args _ ih =>
    rw [raiseAnds, raiseAndsAll_eq_mapM]
    refine (Ensures.mapM_spends (b := bulk) (r := fun a => (a.leaves .and).length) hs
      fun a ha s hs => ih a ha hs).bind ?_
    rintro args' s' ⟨hraised, hspends⟩
    refine .pure ⟨.conj (forall_mem_right_of_forall₂ hraised id), hspends.mono ?_⟩
    rw [bulk_joint rfl, Term.conj, length_leaves_conj]
    omega
  | @disj args _ ih =>
    rw [raiseAnds, raiseAndsAll_eq_mapM]
    refine (Ensures.mapM_spends (b := bulk) (r := fun a => (a.leaves .and).length) hs
      fun a ha s hs => ih a ha hs).bind ?_
    rintro args' s₁ ⟨hraised, hspends⟩
    refine (ensures_disjoin_spends hp hconj (forall_mem_right_of_forall₂ hraised id)
      (hspends.quiet hs)).mono ?_
    rintro t' s' ⟨hr, hdisjoin⟩
    refine ⟨hr, hspends.trans hdisjoin ?_⟩
    rw [bulk_joint rfl]
    omega

/-! ### Gathering clauses -/

/-- A clause costs one, whether it is gathered or left out. -/
theorem ensures_gatherClause_spends (counted : Bool) {c : Clause} (hc : c.Clausal) :
    Ensures (gatherClause c) s fun _ s' =>
      s'.definitions = s.definitions ∧ Spends counted 1 0 s s' := by
  have hgather : ∀ d : Clause, (∀ l ∈ d.literals, l ∈ c.literals) →
      Ensures (modify fun s : Conversion => { s with clauses := s.clauses ++ [d] }) s
        fun _ s' => s'.definitions = s.definitions ∧ Spends counted 1 0 s s' := by
    intro d hd
    refine ⟨_, _, rfl, rfl, rfl, fun c' hc' => ?_, fun _ => by simp⟩
    rcases List.mem_append.1 hc' with hc' | hc'
    · exact Or.inl hc'
    · obtain rfl := List.mem_singleton.1 hc'
      exact Or.inr fun l hl => hc l (hd l hl)
  have hwide : ∀ l ∈ c.literals, l.isWideLiteral = true := fun l hl =>
    isWideLiteral_of_isLiteral (hc l hl).1
  unfold gatherClause
  refine Ensures.bind_get ?_
  split
  · refine Ensures.bind_ofExcept (Clause.isTautology_eq hwide) ?_
    split
    · exact .pure ⟨rfl, .refl (Nat.zero_le 1) s⟩
    · exact Ensures.bind_ofExcept (Clause.withoutFalse_eq hwide)
        (hgather _ fun _ => List.mem_of_mem_filter)
  · exact hgather c fun _ hl => hl

/-- **Disjunctions of literals are gathered as clauses**, which cost one each. -/
theorem ensures_gatherClauses_spends (counted : Bool) (hp : LiteralClass p) (ht : Raised p t) :
    Ensures (gatherClauses t) s fun _ s' =>
      s'.definitions = s.definitions ∧ Spends counted (t.leaves .and).length 0 s s' := by
  have hall : ∀ (ds : List Term) (s : Conversion), (∀ d ∈ ds, Disjunctive p d) →
      Ensures (ds.forM fun d => gatherClause ⟨d.flatten .or⟩) s fun _ s' =>
        s'.definitions = s.definitions ∧ Spends counted ds.length 0 s s' := by
    intro ds
    induction ds with
    | nil => exact fun s _ => .pure ⟨rfl, .refl (Nat.le_refl 0) s⟩
    | cons d ds ih =>
      intro s hds
      rw [List.forall_mem_cons] at hds
      have hc : (⟨d.flatten .or⟩ : Clause).Clausal := by
        intro l hl
        rw [flatten_eq_leaves] at hl
        obtain ⟨hl, hpl⟩ := hds.1.isLiteral_of_mem_leaves l hl
        exact ⟨hl, (hp.settled hpl).quantifierFree⟩
      refine (ensures_gatherClause_spends counted hc).bind ?_
      rintro _ s₁ ⟨hdef, hfirst⟩
      refine (ih s₁ hds.2).mono ?_
      rintro _ s₂ ⟨hdef', hrest⟩
      exact ⟨hdef'.trans hdef, hfirst.trans hrest (by simp; omega)⟩
  unfold gatherClauses
  rw [flatten_eq_leaves]
  exact hall _ s ht.disjunctive_of_mem_leaves

end ConvertM

end ClauseForm
