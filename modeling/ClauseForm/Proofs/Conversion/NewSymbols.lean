import ClauseForm.Proofs.Conversion.Quiet

/-!
# What adding a formula brings

The ledger says of every symbol that a conversion introduces where it came from. So each has
the same arguments wherever it occurs (`ClauseForm.Conversion.exists_add_introduced`), in
the clauses of definitions as well: a Skolem function has those that
`ClauseForm.Term.skolemArgs` reads off the normal form of the closed formula, and the name of
a formula has the formula's free variables. Which names there are, and for which formulas, is
what the conversion itself reports when its journal is kept (`ClauseForm.Entry.namings`).

It also says that the clauses of a formula are made of its own symbols and of new ones
(`ClauseForm.Conversion.Appends`). So the clauses of formulas that are added one after the
other have no variable in common, and no new symbol either, unless that symbol was put into
a later formula (`ClauseForm.Conversion.add_fresh`).
-/

namespace ClauseForm

namespace Conversion

open ConvertM Term

variable {t normal : Term} {gs : List Term} {names : List (Term × Term)} {s s' : Conversion}

/-! ### The arguments of new symbols -/

/-- Wherever the symbol stands in the clauses, it stands over the given variables; alone if there
are none. -/
def OccursOver (cs : List Clause) (f : FunSym) (xs : List Var) : Prop :=
  ∀ c ∈ cs, ∀ l ∈ c.literals, ∀ p ∈ l.parts, p.head? = some f → p = f.appliedTo (xs.map .var)

/-- What is known of the symbols that are introduced when a formula `t` is added, where `normal` is
the normal form of the closed formula: there are as many Skolem functions as existentially bound
variables in it, and they are followed by the names that were given to formulas. The clauses `cs`
come of it. -/
structure Introduced (t normal : Term) (names : List (Term × Term)) (cs : List Clause)
    (s s' : Conversion) : Prop where
  /-- One fresh variable is introduced for each universally bound one. -/
  vars : s'.vocabulary.vars.size = s.vocabulary.vars.size + normal.universalCount
  /-- No other function symbols are introduced. -/
  funs : s'.vocabulary.funs.size = s.vocabulary.funs.size +
    (normal.skolemArgs [] s.vocabulary.vars.size).length + names.length
  /-- A Skolem function stands over the fresh variables of the universal quantifiers around the
  existential one. -/
  skolem : ∀ k xs f, (normal.skolemArgs [] s.vocabulary.vars.size)[k]? = some xs →
    f = ⟨s.vocabulary.funs.size + k, .skolem⟩ → xs.Nodup ∧
      (∀ x ∈ xs, s.vocabulary.vars.size ≤ x.id ∧ x.id < s'.vocabulary.vars.size) ∧
      (f ∉ t.funs → OccursOver cs f xs)
  /-- A name stands over the free variables of the formula that it is the name of. -/
  definition : ∀ k name g f, names[k]? = some (name, g) → f = ⟨s.vocabulary.funs.size +
    (normal.skolemArgs [] s.vocabulary.vars.size).length + k, .definition⟩ →
      name = f.appliedTo (g.freeVars.map .var) ∧ g.freeVars.Nodup ∧
        (f ∉ t.funs → OccursOver cs f g.freeVars)

/-- What was added with a ledger introduces what the ledger says, names as the journal tells of
them. -/
theorem Audited.exists_introduced (h : Audited t normal gs s s')
    (hnames : names = namesFrom (s.vocabulary.funs.size +
      (normal.skolemArgs [] s.vocabulary.vars.size).length) gs) :
    ∃ cs, s'.clauses = s.clauses ++ cs ∧ Introduced t normal names cs s s' := by
  subst hnames
  obtain ⟨hfits, -, ⟨cs, hcs, haccounts⟩, -⟩ := h
  have hover : ∀ f m, (Ledger.ofAdding s t normal gs).Records f m → f ∉ t.funs →
      OccursOver cs f m.args :=
    fun f m hf hnew c hc l hl p hp => (haccounts c hc l hl).eq_appliedTo hf hnew hp
  refine ⟨cs, hcs, hfits.vars, ?_, ?_, ?_⟩
  · rw [hfits.funs, Ledger.mints_ofAdding, List.length_append, List.length_map, List.length_map,
      length_namesFrom, Nat.add_assoc]
    rfl
  · rintro k xs f hk rfl
    have hnone : Ascending s.vocabulary.vars.size s.vocabulary.vars.size [] := ⟨.nil, by simp⟩
    have hascending := ascending_skolemArgs hnone (Nat.le_refl _) xs (List.mem_of_getElem? hk)
    exact ⟨hascending.nodup, hfits.vars ▸ hascending.range,
      hover _ (.skolem xs) (Ledger.records_skolem hk)⟩
  · rintro k name g f hk rfl
    obtain ⟨hg, hname⟩ := getElem?_namesFrom hk
    exact ⟨hname, g.nodup_freeVars, hover _ (.definition g) (Ledger.records_definition hg)⟩

/-- **Every new symbol has the same arguments wherever it occurs**, in the clauses of definitions as
well: a Skolem function the fresh variables of the universal quantifiers around it, and the name of
a formula the free variables of the formula. The names are those that the same run enters in a
journal, if one is kept. -/
theorem exists_add_introduced (hk : t.KeepsArities) (s : Conversion) :
    ∃ u s' entries cs, prepared s.config t = .ok u ∧ add t s = .ok () s' ∧
      add t s.watched = .ok () { s' with journal := some entries } ∧
      s'.clauses = s.clauses ++ cs ∧
      Introduced t (u.universalClosure.nnf true) (Entry.namings entries) cs s s' := by
  obtain ⟨u, s₁, gs, hu, hrun₁, haudited⟩ := exists_add_audited hk s.watched
  obtain ⟨s', hrun⟩ := exists_add hk s
  obtain ⟨journal, hwatched⟩ := exists_add_watched hk hrun
  rw [hwatched] at hrun₁
  cases hrun₁
  obtain ⟨entries, hjournal, hnames⟩ := haudited.journal [] rfl
  obtain ⟨cs, hcs, hintroduced⟩ := haudited.exists_introduced hnames
  obtain rfl : journal = some entries := hjournal
  -- nothing in this looks at the journal
  exact ⟨u, s', entries, cs, hu, hrun, hwatched, hcs, ⟨hintroduced.vars, hintroduced.funs,
    hintroduced.skolem, hintroduced.definition⟩⟩

/-- The formula `![X]: ?[Y]: ![X]: ?[Z]: (r(X, Y) <=> (p & r(Z, X)))`, in which a universal
quantifier hides another one. -/
def scopedExample : Term :=
  .quant .all [⟨0⟩] (.quant .exist [⟨1⟩] (.quant .all [⟨0⟩] (.quant .exist [⟨2⟩]
    (.iff (.call ⟨1, .declared⟩ [.var ⟨0⟩, .var ⟨1⟩])
      (.conj [.const ⟨0, .declared⟩, .call ⟨1, .declared⟩ [.var ⟨2⟩, .var ⟨0⟩]])))))

/-- The vocabulary of `ClauseForm.Conversion.scopedExample`. -/
def scopedVocabulary : Vocabulary :=
  { vars := #[some "X", some "Y", some "Z"], funs := #[some "p", some "r"] }

/-- The second side of the biconditional in `ClauseForm.Conversion.scopedExample`, without its
quantifiers, under the name that it is given. -/
def scopedNames : List (Term × Term) :=
  [(.call ⟨4, .definition⟩ [.var ⟨3⟩, .var ⟨4⟩],
    .conj [.const ⟨0, .declared⟩, .call ⟨1, .declared⟩
      [.call ⟨3, .skolem⟩ [.var ⟨3⟩, .var ⟨4⟩], .var ⟨4⟩]])]

theorem exists_add_introduced_scopedExample :
    scopedExample.WellFormed ∧
      (scopedExample.universalClosure.nnf true).skolemArgs [] 3 = [[⟨3⟩], [⟨3⟩, ⟨4⟩]] ∧
      ∃ u s' entries cs, prepared {} scopedExample = .ok u ∧
        add scopedExample (start {} scopedVocabulary) = .ok () s' ∧
        add scopedExample (start {} scopedVocabulary).watched =
          .ok () { s' with journal := some entries } ∧ s'.clauses = [] ++ cs ∧
        Introduced scopedExample (u.universalClosure.nnf true) (Entry.namings entries) cs
          (start {} scopedVocabulary) s' ∧ Entry.namings entries = scopedNames := by
  have hformed : scopedExample.WellFormed := by decide
  obtain ⟨u, s', entries, cs, hu, hrun, hwatched, hcs, hintroduced⟩ :=
    exists_add_introduced hformed.keepsArities (start {} scopedVocabulary)
  have hnames : (match add scopedExample (start {} scopedVocabulary).watched with
      | .ok _ s => Entry.namings (s.journal.getD [])
      | .error _ _ => []) = scopedNames := by decide +kernel
  rw [hwatched] at hnames
  exact ⟨hformed, by decide, u, s', entries, cs, hu, hrun, hwatched, hcs, hintroduced, hnames⟩

/-! ### Freshness -/

/-- The clauses that were gathered from one state to another. -/
def newClauses (s s' : Conversion) : List Clause :=
  s'.clauses.drop s.clauses.length

/-- The occurrences of variables in clauses. -/
def clauseVars (cs : List Clause) : List Var :=
  cs.flatMap fun c => c.literals.flatMap Term.vars

/-- The occurrences of function symbols in clauses. -/
def clauseFuns (cs : List Clause) : List FunSym :=
  cs.flatMap fun c => c.literals.flatMap Term.funs

/-- From one state to another, a formula was added, which left alone what was there, and gathered
clauses over symbols of the formula and over new ones. -/
structure Appends (t : Term) (s s' : Conversion) : Prop where
  /-- The clauses gathered before stay, ahead of the new ones. -/
  clauses : s.clauses <+: s'.clauses
  /-- Symbols are only allotted. -/
  grows : s.vocabulary.Extends s'.vocabulary
  /-- The variables that were there keep their names. -/
  varName : ∀ x : Var, x.id < s.vocabulary.vars.size →
    s'.vocabulary.varName? x = s.vocabulary.varName? x
  /-- The function symbols that were there keep their names. -/
  funName : ∀ f : FunSym, f.id < s.vocabulary.funs.size →
    s'.vocabulary.funName? f = s.vocabulary.funName? f
  /-- No variable is bound in the new clauses. -/
  quantifierFree : ∀ c ∈ newClauses s s', ∀ l ∈ c.literals, l.QuantifierFree
  /-- The variables of the new clauses are new. -/
  vars : ∀ x ∈ clauseVars (newClauses s s'),
    s.vocabulary.vars.size ≤ x.id ∧ x.id < s'.vocabulary.vars.size
  /-- The function symbols of the new clauses stand in the formula or are new. -/
  funs : ∀ f ∈ clauseFuns (newClauses s s'), f ∈ t.funs ∨ s.vocabulary.Minted s'.vocabulary f

theorem Audited.appends (h : Audited t normal gs s s') : Appends t s s' := by
  obtain ⟨hfits, hext, ⟨cs, hcs, haccounts⟩, -⟩ := h
  have hnew : newClauses s s' = cs := by rw [newClauses, hcs, List.drop_left]
  have hliteral : ∀ {c l}, c ∈ newClauses s s' → l ∈ c.literals →
      (Ledger.ofAdding s t normal gs).Accounts l := fun hc hl => haccounts _ (hnew ▸ hc) _ hl
  refine ⟨hcs ▸ List.prefix_append _ _, hext, fun x hx => ?_, fun f hf => ?_,
    fun c hc l hl => (hliteral hc hl).quantifierFree, fun x hx => ?_, fun f hf => ?_⟩
  · exact hext.varName? hx
  · exact hext.funName? hf
  · obtain ⟨c, hc, hx⟩ := List.mem_flatMap.1 hx
    obtain ⟨l, hl, hx⟩ := List.mem_flatMap.1 hx
    exact hfits.vars ▸ (hliteral hc hl).mem_vars hx
  · obtain ⟨c, hc, hf⟩ := List.mem_flatMap.1 hf
    obtain ⟨l, hl, hf⟩ := List.mem_flatMap.1 hf
    refine ((hliteral hc hl).mem_funs hf).imp_right fun ⟨m, k, hk, heq⟩ => ?_
    have hlt := (List.getElem?_eq_some_iff.1 hk).1
    have hsize := hfits.funs
    rw [heq]
    exact ⟨Nat.le_add_right _ _, hsize ▸ Nat.add_lt_add_left hlt _, m.isGenerated_origin⟩

/-- Formulas are added one after the other, from `before i` to `after i` each. In between, symbols
may be allotted, and another conversion may be begun. -/
structure Adds (n : Nat) (ts : Nat → Term) (before after : Nat → Conversion) : Prop where
  wellFormed : ∀ i < n, (ts i).WellFormed
  within : ∀ i < n, (ts i).Within (before i).vocabulary
  run : ∀ i < n, add (ts i) (before i) = .ok () (after i)
  vars : ∀ i, i + 1 < n →
    (after i).vocabulary.vars.size ≤ (before (i + 1)).vocabulary.vars.size
  funs : ∀ i, i + 1 < n →
    (after i).vocabulary.funs.size ≤ (before (i + 1)).vocabulary.funs.size

namespace Adds

variable {n i j k : Nat} {ts : Nat → Term} {before after : Nat → Conversion} {f : FunSym}

theorem appends (h : Adds n ts before after) (hi : i < n) :
    Appends (ts i) (before i) (after i) := by
  obtain ⟨u, s', gs, -, hrun, haudited⟩ :=
    exists_add_audited (h.wellFormed i hi).keepsArities (before i)
  rw [h.run i hi] at hrun
  cases hrun
  exact haudited.appends

/-- Numbers are given out in the order in which the formulas are added. -/
theorem sizes_le (h : Adds n ts before after) (hij : i < j) (hj : j < n) :
    (after i).vocabulary.vars.size ≤ (before j).vocabulary.vars.size ∧
      (after i).vocabulary.funs.size ≤ (before j).vocabulary.funs.size := by
  induction hij with
  | refl => exact ⟨h.vars i hj, h.funs i hj⟩
  | @step j hij ih =>
    have hgrows := (h.appends (Nat.lt_of_succ_lt hj)).grows
    obtain ⟨hvars, hfuns⟩ := ih (Nat.lt_of_succ_lt hj)
    exact ⟨Nat.le_trans (Nat.le_trans hvars hgrows.vars_le) (h.vars j hj),
      Nat.le_trans (Nat.le_trans hfuns hgrows.funs_le) (h.funs j hj)⟩

/-- **Clauses of different formulas have no variable in common.** -/
theorem not_mem_clauseVars (h : Adds n ts before after) (hi : i < n) (hj : j < n) (hij : i ≠ j)
    {x : Var} (hx : x ∈ clauseVars (newClauses (before i) (after i))) :
    x ∉ clauseVars (newClauses (before j) (after j)) := by
  intro hx'
  have hrange := (h.appends hi).vars x hx
  have hrange' := (h.appends hj).vars x hx'
  rcases Nat.lt_or_gt_of_ne hij with hlt | hgt
  · have hle := (h.sizes_le hlt hj).1
    omega
  · have hle := (h.sizes_le hgt hi).1
    omega

/-- No symbol is introduced twice. -/
theorem not_minted (h : Adds n ts before after) (hi : i < n) (hj : j < n) (hij : i ≠ j)
    (hf : (before i).vocabulary.Minted (after i).vocabulary f) :
    ¬(before j).vocabulary.Minted (after j).vocabulary f := by
  rintro ⟨hle', hlt', -⟩
  obtain ⟨hle, hlt, -⟩ := hf
  rcases Nat.lt_or_gt_of_ne hij with hlt₁ | hgt
  · have hle₁ := (h.sizes_le hlt₁ hj).2
    omega
  · have hle₁ := (h.sizes_le hgt hi).2
    omega

/-- **A symbol introduced for one formula stands in the clauses of another one only if it stands in
that formula**, which then was added later. -/
theorem mem_funs_of_minted (h : Adds n ts before after) (hi : i < n) (hj : j < n) (hij : i ≠ j)
    (hf : (before i).vocabulary.Minted (after i).vocabulary f)
    (hmem : f ∈ clauseFuns (newClauses (before j) (after j))) : i < j ∧ f ∈ (ts j).funs := by
  have hts : f ∈ (ts j).funs := ((h.appends hj).funs f hmem).resolve_right
    (h.not_minted hi hj hij hf)
  refine ⟨(Nat.lt_or_gt_of_ne hij).resolve_right fun hgt => ?_, hts⟩
  have hlt := h.within j hj f hts
  have hgrows := (h.appends hj).grows.funs_le
  have hle := (h.sizes_le hgt hi).2
  have hge := hf.1
  omega

/-- Where the formulas mention none of the new symbols, their clauses have none in common. -/
theorem not_mem_clauseFuns (h : Adds n ts before after)
    (hold : ∀ i < n, ∀ f ∈ (ts i).funs, ∀ k < n,
      ¬(before k).vocabulary.Minted (after k).vocabulary f)
    (hi : i < n) (hj : j < n) (hk : k < n) (hij : i ≠ j)
    (hf : (before k).vocabulary.Minted (after k).vocabulary f)
    (hmem : f ∈ clauseFuns (newClauses (before i) (after i))) :
    f ∉ clauseFuns (newClauses (before j) (after j)) := by
  intro hmem'
  -- the symbol was introduced for at most one of the two
  rcases eq_or_ne k i with rfl | hki
  · exact hold j hj f (h.mem_funs_of_minted hk hj hij hf hmem').2 k hk hf
  · exact hold i hi f (h.mem_funs_of_minted hk hi hki hf hmem).2 k hk hf

end Adds

/-- **Adding a formula leaves alone what is there, and its clauses are made of its own symbols and
of new ones.** So the clauses of different formulas have no variable in common, and no symbol was
introduced for two of them. A symbol that was introduced for one stands in the clauses of another
one only if it was put into that formula; where no such symbol was put into a formula, the clauses
have none in common. -/
theorem add_fresh :
    (∀ (t : Term) (s : Conversion), t.WellFormed → ∃ s', add t s = .ok () s' ∧ Appends t s s') ∧
      ∀ (n : Nat) (ts : Nat → Term) (before after : Nat → Conversion), Adds n ts before after →
        (∀ i j, i < n → j < n → i ≠ j →
          (∀ x ∈ clauseVars (newClauses (before i) (after i)),
            x ∉ clauseVars (newClauses (before j) (after j))) ∧
          ∀ f, (before i).vocabulary.Minted (after i).vocabulary f →
            ¬(before j).vocabulary.Minted (after j).vocabulary f ∧
            (f ∈ clauseFuns (newClauses (before j) (after j)) → i < j ∧ f ∈ (ts j).funs)) ∧
        ((∀ i < n, ∀ f ∈ (ts i).funs, ∀ k < n,
            ¬(before k).vocabulary.Minted (after k).vocabulary f) →
          ∀ i j k, i < n → j < n → k < n → i ≠ j →
            ∀ f, (before k).vocabulary.Minted (after k).vocabulary f →
              f ∈ clauseFuns (newClauses (before i) (after i)) →
              f ∉ clauseFuns (newClauses (before j) (after j))) := by
  refine ⟨fun t s ht => ?_, fun n ts before after h => ⟨fun i j hi hj hij => ⟨fun x hx => ?_,
    fun f hf => ⟨?_, ?_⟩⟩, fun hold i j k hi hj hk hij f hf hmem => ?_⟩⟩
  · obtain ⟨u, s', gs, -, hrun, haudited⟩ := exists_add_audited ht.keepsArities s
    exact ⟨s', hrun, haudited.appends⟩
  · exact h.not_mem_clauseVars hi hj hij hx
  · exact h.not_minted hi hj hij hf
  · exact h.mem_funs_of_minted hi hj hij hf
  · exact h.not_mem_clauseFuns hold hi hj hk hij hf hmem

/-- Two conversions of `ClauseForm.Conversion.scopedExample`, one after the other. -/
theorem add_fresh_scopedExample :
    scopedExample.WellFormed ∧ scopedExample.Within scopedVocabulary ∧
      ∃ s₁ s₂, add scopedExample (start {} scopedVocabulary) = .ok () s₁ ∧
        Appends scopedExample (start {} scopedVocabulary) s₁ ∧ add scopedExample s₁ = .ok () s₂ ∧
        (∀ x ∈ clauseVars (newClauses (start {} scopedVocabulary) s₁),
          x ∉ clauseVars (newClauses s₁ s₂)) ∧
        ∀ f, scopedVocabulary.Minted s₁.vocabulary f →
          f ∈ clauseFuns (newClauses (start {} scopedVocabulary) s₁) →
          f ∉ clauseFuns (newClauses s₁ s₂) := by
  have hformed : scopedExample.WellFormed := by decide
  have hwithin : scopedExample.Within scopedVocabulary := by decide
  obtain ⟨s₁, hrun₁, happends₁⟩ := add_fresh.1 scopedExample (start {} scopedVocabulary) hformed
  obtain ⟨s₂, hrun₂, happends₂⟩ := add_fresh.1 scopedExample s₁ hformed
  let states : Nat → Conversion
    | 0 => start {} scopedVocabulary
    | 1 => s₁
    | _ => s₂
  have hstates : ∀ i < 2, scopedExample.Within (states i).vocabulary := by
    intro i hi
    obtain rfl | rfl : i = 0 ∨ i = 1 := by omega
    · exact hwithin
    · exact hwithin.mono happends₁.grows.funs_le
  have hadds : Adds 2 (fun _ => scopedExample) states fun i => states (i + 1) := by
    refine ⟨fun _ _ => hformed, hstates, fun i hi => ?_, fun _ _ => Nat.le_refl _,
      fun _ _ => Nat.le_refl _⟩
    obtain rfl | rfl : i = 0 ∨ i = 1 := by omega
    · exact hrun₁
    · exact hrun₂
  obtain ⟨hpairs, hshared⟩ := add_fresh.2 2 _ _ _ hadds
  refine ⟨hformed, hwithin, s₁, s₂, hrun₁, happends₁, hrun₂, ?_, fun f hf hmem => ?_⟩
  · exact (hpairs 0 1 (by decide) (by decide) (by decide)).1
  · refine hshared (fun _ _ f hf k hk => ?_) 0 1 0 (by decide) (by decide) (by decide) (by decide) f
      hf hmem
    exact (hstates k hk).not_minted f hf

/-- The formula `?[X]: p(X)`, for which a Skolem function `sk0` is introduced. -/
def unaryExample : Term :=
  .quant .exist [⟨0⟩] (.call ⟨0, .declared⟩ [.var ⟨0⟩])

/-- The vocabulary of `ClauseForm.Conversion.unaryExample`. -/
def unaryVocabulary : Vocabulary :=
  { vars := #[some "X"], funs := #[some "p"] }

/-- The formula `p(sk0)`, which mentions that function. -/
def mentioningExample : Term :=
  .call ⟨0, .declared⟩ [.const ⟨1, .skolem⟩]

/-- The conversion that added `ClauseForm.Conversion.unaryExample` and, so many times,
`ClauseForm.Conversion.mentioningExample`. -/
def mentioningState (n : Nat) : Conversion :=
  { vocabulary := { vars := #[some "X"], funs := #[some "p", some ("sk" ++ toString 0)] }
    config := {}
    skolems := 1
    clauses := List.replicate (n + 1) ⟨[mentioningExample]⟩ }

theorem add_unaryExample :
    add unaryExample (start {} unaryVocabulary) = .ok () (mentioningState 0) := by
  rw [add_of_plain _ rfl, addClosed, nestingLimit, convertWithin_succ, convertVia,
    lowerNot_eq_nnf (WellFormed.keepsArities (by decide))]
  simp only [clausifyVia, gatherClauses, flatten_eq_leaves]
  rfl

theorem add_mentioningExample :
    add mentioningExample (mentioningState 0) = .ok () (mentioningState 1) := by
  rw [add_of_plain _ rfl, addClosed, nestingLimit, convertWithin_succ, convertVia,
    lowerNot_eq_nnf (WellFormed.keepsArities (by decide))]
  simp only [clausifyVia, gatherClauses, flatten_eq_leaves]
  rfl

/-- **A symbol that was put into a later formula is shared**: after `?[X]: p(X)`, the clause of
`p(sk0)` is over the Skolem function of the first formula. -/
theorem exists_adds_shared :
    ∃ before after,
      Adds 2 (fun i => if i = 0 then unaryExample else mentioningExample) before after ∧
      before 0 = start {} unaryVocabulary ∧
      ∃ f, (before 0).vocabulary.Minted (after 0).vocabulary f ∧
        f ∈ clauseFuns (newClauses (before 0) (after 0)) ∧
        f ∈ clauseFuns (newClauses (before 1) (after 1)) := by
  let before : Nat → Conversion
    | 0 => start {} unaryVocabulary
    | _ => mentioningState 0
  refine ⟨before, mentioningState, ⟨?_, ?_, fun i hi => ?_, fun _ _ => ?_, fun _ _ => ?_⟩, rfl,
    ⟨1, .skolem⟩, ⟨by decide, by decide, rfl⟩, by decide, by decide⟩
  · decide
  · decide
  · obtain rfl | rfl : i = 0 ∨ i = 1 := by omega
    · exact add_unaryExample
    · exact add_mentioningExample
  · exact Nat.le_refl _
  · exact Nat.le_refl _

end Conversion

end ClauseForm
