import Mathlib.Algebra.Order.BigOperators.Group.Finset
import Mathlib.Algebra.Order.Group.Multiset
import ClauseForm.Proofs.Conversion.Sequence
import ClauseForm.Proofs.Conversion.Staged

/-!
# The clauses of a conjunction

A conjunction has the clauses of its members (`ClauseForm.convert_conj`), but neither in their
order nor with their numbers: every stage goes through all the members before the next one
begins, so that the definitions of the one stand between those of the others, and so do the new
symbols.

Each stage of a conjunction is the same stage of its members in turn, which is how the
conversions of the members are woven into one (`ClauseForm.Conversion.exists_staged_conj`). That
is for a vocabulary that is as large as those of the members. From there, the new symbols are
moved back to any other vocabulary that holds those of the formulas
(`ClauseForm.Conversion.exchanges_of_le`).

If the members are converted in turn by a single vocabulary, then their new symbols lie in
intervals in a row, and one numbering does for all of them
(`ClauseForm.Numbering.Joins.exists_exchanges`).
-/

namespace ClauseForm

open ConvertM Term

/-! ### What is done with a conjunction -/

namespace Term

variable {ts : List Term}

theorem keepsArities_conj (h : ∀ t ∈ ts, t.KeepsArities) : (conj ts).KeepsArities :=
  keepsArities_node.2 ⟨rfl, h⟩

theorem freeVars_conj (h : ∀ t ∈ ts, t.freeVars = []) : (conj ts).freeVars = [] := by
  refine List.eq_nil_iff_forall_not_mem.2 fun x hx => ?_
  rw [mem_freeVars, conj, free_node, List.mem_flatMap] at hx
  obtain ⟨t, ht, hx⟩ := hx
  exact List.not_mem_nil (h t ht ▸ mem_freeVars.2 hx)

theorem clauseList_conj (ts : List Term) : (conj ts).clauseList = ts.flatMap clauseList := by
  rw [clauseList, conj, leaves_node_self, List.map_flatMap]
  rfl

theorem clauseList_renumber (n : Numbering) (t : Term) :
    (t.renumber n).clauseList = t.clauseList.map (Clause.renumber n) := by
  rw [clauseList, clauseList, renumber, leaves_mapSymbols, List.map_map, List.map_map]
  exact List.map_congr_left fun d _ => congrArg Clause.mk (leaves_mapSymbols ..)

end Term

namespace ConvertM

theorem matrix_conj (ts : List Term) : matrix ((conj ts).nnf true) .empty =
    (do return conj (← ts.mapM fun t => matrix (t.nnf true) .empty)) := by
  rw [conj, nnf, nnfAll_eq_map, if_pos rfl, matrix_node, matrixAll_eq_mapM, List.mapM_map]
  rfl

theorem expandIffs_conj (define : Term → ConvertM Unit) (ts : List Term) :
    expandIffs define (conj ts) = (do return conj (← ts.mapM (expandIffs define))) := by
  rw [conj, expandIffs, expandIffsAll_eq_mapM]
  rfl

theorem raiseAnds_conj (define : Term → ConvertM Unit) (ts : List Term) :
    raiseAnds define (conj ts) = (do return conj (← ts.mapM (raiseAnds define))) := by
  rw [conj, raiseAnds, raiseAndsAll_eq_mapM]

/-- Taking the quantifiers of a closed formula away is mirrored if its function symbols stay. -/
theorem mirrors_matrix_closed {ρ : Relabeling} {t : Term} (hk : t.KeepsArities)
    (hclosed : t.free = []) (hfix : ∀ f ∈ t.funs, ρ.fn f = f) :
    Mirrors ρ (Twin ρ) (matrix (t.nnf true) .empty) (matrix (t.nnf true) .empty) := by
  have hsigned := hk.signed true
  have hsame : Corresponds (ρ.fn · = ·) (ρ.var · = ·) t t := by
    refine (Corresponds.refl (fun _ => rfl) (fun _ => rfl) t).mono (fun f hf g hfg => ?_)
      fun x hx => ?_
    · exact (hfix f hf).trans hfg
    · rw [hclosed] at hx
      exact absurd hx List.not_mem_nil
  exact mirrors_matrix (hsame.nnf hsigned) (hsigned.keepsArities_nnf hk) (Scope.linked_empty _)

end ConvertM

namespace Conversion

variable {ι : Type} [Fintype ι] [DecidableEq ι] {is : List ι} {ts : ι → Term}
variable {base : ι → Vocabulary} {first : Vocabulary}
variable {s₁ s₂ s₃ : ι → Conversion} {m e c : ι → Term}

/-- **A conjunction is converted stage by stage as its members are**, woven into one. -/
theorem exists_staged_conj (hnodup : is.Nodup) (hall : ∀ i, i ∈ is)
    (hk : ∀ i, (ts i).KeepsArities) (hclosed : ∀ i, (ts i).freeVars = [])
    (hw : ∀ i, (ts i).Within (base i)) (hv : ∀ i, (base i).vars.size ≤ first.vars.size)
    (hf : ∀ i, (base i).funs.size ≤ first.funs.size)
    (h : ∀ i, Staged (ts i) (start {} (base i)) (s₁ i) (s₂ i) (s₃ i) (m i) (e i) (c i)) :
    ∃ j₁ j₂ j₃ m' e' n, Staged (.conj (is.map ts)) (start {} first) j₁ j₂ j₃ m' e'
        (.conj (is.map fun i => (c i).renumber (n i))) ∧ Woven base first n s₃ j₃ := by
  have hheld := fun i => (h i).held (hk i) (hclosed i) (hw i)
  have hall' : ∀ s s' : ι → Conversion, (fun i => if i ∈ is then s' i else s i) = s' :=
    fun s s' => funext fun i => if_pos (hall i)
  obtain ⟨j₁, n₁, hrun₁, -, hwoven₁⟩ := (Woven.start hv hf).exists_mapM hnodup
    (fun i _ => (h i).matrix) (fun i _ => (hheld i).1.1) (fun i _ => (hheld i).2.1)
    fun i _ n' hv hf hagrees => mirrors_matrix_closed (hk i) (free_eq_nil (hclosed i))
      fun f hf' => congrArg (FunSym.mk · f.origin) (hagrees.fn f.id (hw i f hf')).symm
  rw [hall'] at hwoven₁
  obtain ⟨j₂, n₂, hrun₂, -, hwoven₂⟩ := hwoven₁.exists_mapM hnodup
    (fun i _ => (h i).expand) (fun i _ => (hheld i).1.2.1) (fun i _ => (hheld i).2.2.1)
    (y := fun i => expandIffs (convertWithin 3) ((m i).renumber (n₁ i)))
    fun i _ n' hv hf hagrees => mirrors_expandIffs (mirrorsTwins_convertWithin 3)
      ((hheld i).2.1.twin hagrees)
  rw [hall'] at hwoven₂
  obtain ⟨j₃, n₃, hrun₃, -, hwoven₃⟩ := hwoven₂.exists_mapM hnodup
    (fun i _ => (h i).raise) (fun i _ => (hheld i).1.2.2) (fun i _ => (hheld i).2.2.2)
    (y := fun i => raiseAnds (convertWithin 3) ((e i).renumber (n₂ i)))
    fun i _ n' hv hf hagrees => mirrors_raiseAnds (mirrorsTwins_convertWithin 3)
      ((hheld i).2.2.1.twin hagrees)
  rw [hall'] at hwoven₃
  refine ⟨j₁, j₂, j₃, .conj (is.map fun i => (m i).renumber (n₁ i)),
    .conj (is.map fun i => (e i).renumber (n₂ i)), n₃, ⟨?_, ?_, ?_⟩, hwoven₃⟩
  · rw [matrix_conj, List.mapM_map]
    exact bind_eq_ok.2 ⟨_, j₁, hrun₁, rfl⟩
  · rw [expandIffs_conj, List.mapM_map]
    exact bind_eq_ok.2 ⟨_, j₂, hrun₂, rfl⟩
  · rw [raiseAnds_conj, List.mapM_map]
    exact bind_eq_ok.2 ⟨_, j₃, hrun₃, rfl⟩

/-- The clauses of the members of a list, as a multiset. -/
theorem coe_flatMap_eq_sum (hnodup : is.Nodup) (hall : ∀ i, i ∈ is) (cs : ι → List Clause) :
    (is.flatMap cs : Multiset Clause) = ∑ i, (cs i : Multiset Clause) := by
  have huniv : is.toFinset = Finset.univ := by
    ext i
    simp [hall i]
  have hlist : ∀ is : List ι, (is.flatMap cs : Multiset Clause) =
      (is.map fun i => (cs i : Multiset Clause)).sum := by
    intro is
    induction is with
    | nil => rfl
    | cons i is ih =>
      rw [List.flatMap_cons, List.map_cons, List.sum_cons, ← ih, Multiset.coe_add]
  rw [hlist, ← huniv, List.sum_toFinset _ hnodup]

end Conversion

namespace Numbering

variable {ι : Type}

/-- The symbols that are new in several vocabularies are exchanged one to one for those that are new
in a single one: a symbol of the vocabulary `ws i` by the numbering `n i`. What was in both
vocabularies before stays. -/
structure Joins (n : ι → Numbering) (ws ws' : ι → Vocabulary) (voc voc' : Vocabulary) :
    Prop where
  vars : Set.BijOn (fun p : ι × ℕ => (n p.1).var p.2)
    (numbersBetween (fun i => (ws i).vars.size) fun i => (ws' i).vars.size)
    (Set.Ico voc.vars.size voc'.vars.size)
  funs : Set.BijOn (fun p : ι × ℕ => (n p.1).fn p.2)
    (numbersBetween (fun i => (ws i).funs.size) fun i => (ws' i).funs.size)
    (Set.Ico voc.funs.size voc'.funs.size)
  varKept : ∀ i, ∀ k < (ws i).vars.size, k < voc.vars.size → (n i).var k = k
  fnKept : ∀ i, ∀ k < (ws i).funs.size, k < voc.funs.size → (n i).fn k = k

/-- The symbols that are new in one vocabulary are exchanged one to one for those that are new in
another. What was in both before stays. -/
structure Exchanges (n : Numbering) (w w' voc voc' : Vocabulary) : Prop where
  vars : Set.BijOn n.var (Set.Ico w.vars.size w'.vars.size)
    (Set.Ico voc.vars.size voc'.vars.size)
  funs : Set.BijOn n.fn (Set.Ico w.funs.size w'.funs.size)
    (Set.Ico voc.funs.size voc'.funs.size)
  varKept : ∀ k < w.vars.size, k < voc.vars.size → n.var k = k
  fnKept : ∀ k < w.funs.size, k < voc.funs.size → n.fn k = k

/-- One numbering after the other. -/
def comp (n' n : Numbering) : Numbering :=
  ⟨n'.var ∘ n.var, n'.fn ∘ n.fn⟩

/-- The symbols can be moved on to another vocabulary, if that is not larger. -/
theorem Joins.comp {n : ι → Numbering} {n' : Numbering} {ws ws' : ι → Vocabulary}
    {voc voc' first first' : Vocabulary} (h : Joins n ws ws' first first')
    (h' : n'.Exchanges first first' voc voc') (hv : voc.vars.size ≤ first.vars.size)
    (hf : voc.funs.size ≤ first.funs.size) : Joins (fun i => n'.comp (n i)) ws ws' voc voc' where
  vars := h'.vars.comp h.vars
  funs := h'.funs.comp h.funs
  varKept i k hk hk' := by
    have hfirst := Nat.lt_of_lt_of_le hk' hv
    exact (congrArg n'.var (h.varKept i k hk hfirst)).trans (h'.varKept k hfirst hk')
  fnKept i k hk hk' := by
    have hfirst := Nat.lt_of_lt_of_le hk' hf
    exact (congrArg n'.fn (h.fnKept i k hk hfirst)).trans (h'.fnKept k hfirst hk')

/-- **One numbering does for vocabularies in a row**, of which each goes on where the one before
ends: what is new from the first to the last is what is new in any of them. -/
theorem Joins.exists_exchanges {N : ℕ} {T : ℕ → Vocabulary} {n : Fin N → Numbering}
    {voc voc' : Vocabulary} (hext : ∀ i, (T i).Extends (T (i + 1)))
    (h : Joins n (fun i => T i) (fun i => T (i + 1)) voc voc') :
    ∃ n' : Numbering, n'.Exchanges (T 0) (T N) voc voc' ∧
      (∀ (i : Fin N) k, (T i).vars.size ≤ k → k < (T (i + 1)).vars.size →
        n'.var k = (n i).var k) ∧
      (∀ (i : Fin N) k, (T i).funs.size ≤ k → k < (T (i + 1)).funs.size →
        n'.fn k = (n i).fn k) ∧
      ∀ k < (T 0).funs.size, n'.fn k = k := by
  obtain ⟨v, hv, hvsame, hvstays⟩ := exists_common (r := fun i => (n i).var)
    (monotone_nat_of_le_succ fun i => (hext i).vars_le) h.vars
  obtain ⟨f, hf, hfsame, hfstays⟩ := exists_common (r := fun i => (n i).fn)
    (monotone_nat_of_le_succ fun i => (hext i).funs_le) h.funs
  exact ⟨⟨v, f⟩, ⟨hv, hf, fun k hk _ => hvstays k hk, fun k hk _ => hfstays k hk⟩, hvsame, hfsame,
    hfstays⟩

end Numbering

theorem Clause.renumber_renumber (n n' : Numbering) (c : Clause) :
    (c.renumber n).renumber n' = c.renumber (n'.comp n) :=
  c.mapSymbols_mapSymbols ..

namespace Conversion

variable {ι : Type} [Fintype ι] [DecidableEq ι] {is : List ι} {ts : ι → Term}
variable {ws : ι → Vocabulary} {voc voc' first : Vocabulary} {cnf : Cnf}

/-- A conjunction has the clauses of its members, if the vocabulary that it is converted by is as
large as theirs. -/
theorem exists_convert_conj_of_le (hnodup : is.Nodup) (hall : ∀ i, i ∈ is)
    (hk : ∀ i, (ts i).KeepsArities) (hclosed : ∀ i, (ts i).freeVars = [])
    (hw : ∀ i, (ts i).Within (ws i)) (hv : ∀ i, (ws i).vars.size ≤ first.vars.size)
    (hf : ∀ i, (ws i).funs.size ≤ first.funs.size) :
    ∃ (cnf : Cnf) (first' : Vocabulary) (cnfs : ι → Cnf) (ws' : ι → Vocabulary)
        (n : ι → Numbering), convert {} (.conj (is.map ts)) first = (.ok cnf, first') ∧
      (∀ i, convert {} (ts i) (ws i) = (.ok (cnfs i), ws' i)) ∧
      Numbering.Joins n ws ws' first first' ∧
      (cnf.clauses : Multiset Clause) =
        ∑ i, ((cnfs i).clauses.map (Clause.renumber (n i)) : Multiset Clause) := by
  choose s₁ s₂ s₃ m e c h using fun i => exists_staged (hk i) (hclosed i) (ws i)
  obtain ⟨j₁, j₂, j₃, m', e', n, hstaged, hwoven⟩ :=
    exists_staged_conj hnodup hall hk hclosed hw hv hf h
  have hkconj := keepsArities_conj (List.forall_mem_map.2 fun i (_ : i ∈ is) => hk i)
  have hclosedconj := freeVars_conj (List.forall_mem_map.2 fun i (_ : i ∈ is) => hclosed i)
  refine ⟨_, _, fun i => ⟨(s₃ i).clauses ++ (c i).clauseList⟩, fun i => (s₃ i).vocabulary, n,
    hstaged.convert_eq hkconj hclosedconj,
    fun i => (h i).convert_eq (hk i) (hclosed i),
    ⟨hwoven.vars.bijOn, hwoven.funs.bijOn, fun i k hk _ => hwoven.vars.fixed i k hk,
      fun i k hk _ => hwoven.funs.fixed i k hk⟩, ?_⟩
  rw [← Multiset.coe_add, hwoven.clauses, clauseList_conj, List.flatMap_map,
    coe_flatMap_eq_sum hnodup hall, ← Finset.sum_add_distrib]
  refine Finset.sum_congr rfl fun i _ => ?_
  rw [clauseList_renumber, List.map_append, Multiset.coe_add]

end Conversion

/-! ### From one vocabulary to another -/

namespace Vocabulary

/-- A vocabulary with so many variables and function symbols, which have no names. -/
def unnamed (vars funs : ℕ) : Vocabulary :=
  ⟨.replicate vars none, .replicate funs none⟩

@[simp]
theorem size_vars_unnamed (vars funs : ℕ) : (unnamed vars funs).vars.size = vars :=
  Array.size_replicate

@[simp]
theorem size_funs_unnamed (vars funs : ℕ) : (unnamed vars funs).funs.size = funs :=
  Array.size_replicate

end Vocabulary

/-- What was moved up is moved back. -/
theorem carryOn_moveUp {bound bound' : ℕ} (h : bound ≤ bound') (k : ℕ) :
    carryOn id bound' bound (moveUp bound (bound' - bound) k) = k := by
  rcases Nat.lt_or_ge k bound with hlt | hge
  · rw [moveUp_of_lt hlt, carryOn_of_lt (Nat.lt_of_lt_of_le hlt h)]
    rfl
  · obtain ⟨d, rfl⟩ := Nat.exists_eq_add_of_le hge
    rw [moveUp_add h, carryOn_add]

theorem Clause.renumber_relabel_moveUp {voc first : Vocabulary}
    (hv : voc.vars.size ≤ first.vars.size) (hf : voc.funs.size ≤ first.funs.size) (c : Clause) :
    (c.relabel (.moveUp voc first)).renumber (Numbering.carry ⟨id, id⟩ first voc) = c := by
  have hvar : (Numbering.carry ⟨id, id⟩ first voc).onVar ∘ (Relabeling.moveUp voc first).var = id :=
    funext fun x => congrArg Var.mk (carryOn_moveUp hv x.id)
  have hfn : (Numbering.carry ⟨id, id⟩ first voc).onFn ∘ (Relabeling.moveUp voc first).fn = id :=
    funext fun f => congrArg (FunSym.mk · f.origin) (carryOn_moveUp hf f.id)
  refine (c.mapSymbols_mapSymbols ..).trans ?_
  rw [hvar, hfn, mapSymbols_id]

namespace Conversion

variable {voc voc' first first' : Vocabulary} {t : Term} {cnf cnf' : Cnf}

/-- Where a conversion is alike to another one but for symbols that were moved up, there are as many
new symbols here as there. -/
theorem Alike.exchanges {s s' : Conversion} (h : Alike (.moveUp voc first) s s')
    (hext : voc.Extends s.vocabulary) (hv : voc.vars.size ≤ first.vars.size)
    (hf : voc.funs.size ≤ first.funs.size) :
    (Numbering.carry ⟨id, id⟩ first voc).Exchanges first s'.vocabulary voc s.vocabulary := by
  have hvars : moveUp _ _ s.vocabulary.vars.size = s'.vocabulary.vars.size :=
    congrArg Var.id (h.vars 0)
  have hfuns : moveUp _ _ s.vocabulary.funs.size = s'.vocabulary.funs.size :=
    congrArg FunSym.id (h.funs 0 .skolem)
  refine ⟨?_, ?_, fun k hk _ => carryOn_of_lt hk, fun k hk _ => carryOn_of_lt hk⟩
  · obtain ⟨d, hd⟩ := Nat.exists_eq_add_of_le hext.vars_le
    rw [← hvars, hd, moveUp_add hv]
    exact bijOn_carryOn ..
  · obtain ⟨d, hd⟩ := Nat.exists_eq_add_of_le hext.funs_le
    rw [← hfuns, hd, moveUp_add hf]
    exact bijOn_carryOn ..

/-- **The clauses by a larger vocabulary are those by the smaller one**, with the new symbols moved
up. -/
theorem exchanges_of_le (hk : t.KeepsArities) (hw : t.Within voc)
    (hv : voc.vars.size ≤ first.vars.size) (hf : voc.funs.size ≤ first.funs.size)
    (h : convert {} t voc = (.ok cnf, voc')) (h' : convert {} t first = (.ok cnf', first')) :
    (Numbering.carry ⟨id, id⟩ first voc).Exchanges first first' voc voc' ∧
      cnf.clauses = cnf'.clauses.map (Clause.renumber (Numbering.carry ⟨id, id⟩ first voc)) := by
  obtain ⟨s, hrun, rfl, rfl⟩ := exists_of_convert h
  have halike : Alike (.moveUp voc first) (start {} voc) (start {} first) := alike_start hv hf
  obtain ⟨s', hrun', habreast⟩ := exists_add_alphaEq (.refl (fun _ => rfl) (fun _ => rfl) t) hk
    (fun f hf => Relabeling.fn_moveUp_of_lt (hw f hf)) halike rfl hrun
  obtain ⟨rfl, rfl⟩ : cnf' = ⟨s'.clauses⟩ ∧ first' = s'.vocabulary := by
    simpa using h'.symm.trans (convert_of_add hrun')
  refine ⟨habreast.alike.exchanges ((bySteps_add t).steps hrun).vocabulary hv hf, ?_⟩
  obtain ⟨cs, hcs, hcs'⟩ := habreast.clauses
  rw [start, List.nil_append] at hcs hcs'
  rw [hcs, hcs', List.map_map]
  refine ((List.map_congr_left fun c _ => ?_).trans (List.map_id cs)).symm
  exact c.renumber_relabel_moveUp hv hf

/-! ### Whatever the vocabularies -/

section Family

variable {ι : Type} [Fintype ι] [DecidableEq ι] {is : List ι} {ts : ι → Term}
variable {ws : ι → Vocabulary}

/-- **A conjunction has the clauses of its members**, each converted by a vocabulary of its own. -/
theorem exists_joins (hnodup : is.Nodup) (hall : ∀ i, i ∈ is) (hk : ∀ i, (ts i).KeepsArities)
    (hclosed : ∀ i, (ts i).freeVars = []) (hw : ∀ i, (ts i).Within (ws i))
    (hvoc : ∀ i, (ts i).Within voc)
    (hrun : convert {} (.conj (is.map ts)) voc = (.ok cnf, voc')) :
    ∃ (cnfs : ι → Cnf) (ws' : ι → Vocabulary) (n : ι → Numbering),
      (∀ i, convert {} (ts i) (ws i) = (.ok (cnfs i), ws' i)) ∧
        Numbering.Joins n ws ws' voc voc' ∧ (cnf.clauses : Multiset Clause) =
          ∑ i, ((cnfs i).clauses.map (Clause.renumber (n i)) : Multiset Clause) := by
  -- a vocabulary that is as large as any of the others
  let first := Vocabulary.unnamed (voc.vars.size + ∑ i, (ws i).vars.size)
    (voc.funs.size + ∑ i, (ws i).funs.size)
  have hv : voc.vars.size ≤ first.vars.size := by simp [first]
  have hf : voc.funs.size ≤ first.funs.size := by simp [first]
  have hle : ∀ (size : ι → ℕ) (i : ι), size i ≤ ∑ i, size i := fun size i =>
    Finset.single_le_sum (fun _ _ => Nat.zero_le _) (Finset.mem_univ i)
  have hvs : ∀ i, (ws i).vars.size ≤ first.vars.size := fun i => by
    simpa [first] using Nat.le_add_left_of_le (hle (fun i => (ws i).vars.size) i)
  have hfs : ∀ i, (ws i).funs.size ≤ first.funs.size := fun i => by
    simpa [first] using Nat.le_add_left_of_le (hle (fun i => (ws i).funs.size) i)
  obtain ⟨cnf₁, first', cnfs, ws', n, hrun₁, hruns, hjoins, hclauses⟩ :=
    exists_convert_conj_of_le hnodup hall hk hclosed hw hvs hfs
  have hkconj := keepsArities_conj (List.forall_mem_map.2 fun i (_ : i ∈ is) => hk i)
  have hwconj : (conj (is.map ts)).Within voc :=
    within_node.2 (List.forall_mem_map.2 fun i _ => hvoc i)
  obtain ⟨hexchanges, hmoved⟩ := exchanges_of_le hkconj hwconj hv hf hrun hrun₁
  refine ⟨cnfs, ws', _, hruns, hjoins.comp hexchanges hv hf, ?_⟩
  rw [hmoved, ← Multiset.map_coe, hclauses, ← Multiset.coe_mapAddMonoidHom, map_sum]
  refine Finset.sum_congr rfl fun i _ => ?_
  rw [Multiset.coe_mapAddMonoidHom, Multiset.map_coe, List.map_map]
  exact congrArg _ (List.map_congr_left fun c _ => c.renumber_renumber ..)

end Family

/-! ### One after the other -/

/-- **Formulas converted in turn**: each by the vocabulary that the one before left. -/
theorem exists_convertEach (config : Config) {ts : List Term} (hk : ∀ t ∈ ts, t.KeepsArities)
    (voc : Vocabulary) : ∃ (T : ℕ → Vocabulary) (cnfs : Fin ts.length → Cnf), T 0 = voc ∧
      (∀ i, (T i).Extends (T (i + 1))) ∧
      (∀ i, convert config (ts.get i) (T i) = (.ok (cnfs i), T (i + 1))) ∧
      convertEach config ts voc = (.ok (List.ofFn cnfs), T ts.length) := by
  induction ts generalizing voc with
  | nil => exact ⟨fun _ => voc, Fin.elim0, rfl, fun _ => .refl _, fun i => i.elim0, rfl⟩
  | cons t ts ih =>
    rw [List.forall_mem_cons] at hk
    obtain ⟨s, hrun⟩ := exists_add hk.1 (start config voc)
    obtain ⟨T, cnfs, hT, hext, hruns, heach⟩ := ih hk.2 s.vocabulary
    refine ⟨fun | 0 => voc | i + 1 => T i, Fin.cons ⟨s.clauses⟩ cnfs, rfl, ?_, ?_, ?_⟩
    · rintro (_ | i)
      · change voc.Extends (T 0)
        rw [hT]
        exact ((bySteps_add t).steps hrun).vocabulary
      · exact hext i
    · refine Fin.cases ?_ fun i => ?_
      · change convert config t voc = (.ok ⟨s.clauses⟩, T 0)
        rw [hT]
        exact convert_of_add hrun
      · exact hruns i
    · rw [List.ofFn_succ]
      exact convertEach_cons (convert_of_add hrun) heach

/-- What becomes of the clauses of a formula is a matter of the new symbols and those of the
formula. -/
theorem map_renumber_congr {n n' : Numbering} (hk : t.KeepsArities)
    (h : convert {} t voc = (.ok cnf, voc'))
    (hv : ∀ k, voc.vars.size ≤ k → k < voc'.vars.size → n.var k = n'.var k)
    (hf : ∀ k, voc.funs.size ≤ k → k < voc'.funs.size → n.fn k = n'.fn k)
    (ht : ∀ f ∈ t.funs, n.fn f.id = n'.fn f.id) :
    cnf.clauses.map (Clause.renumber n) = cnf.clauses.map (Clause.renumber n') := by
  obtain ⟨s, hrun, rfl, rfl⟩ := exists_of_convert h
  obtain ⟨_, r, _, -, hrun', haudited⟩ := exists_add_audited hk (start {} voc)
  rw [hrun] at hrun'
  cases hrun'
  have happends := haudited.appends
  refine List.map_congr_left fun c hc => congrArg Clause.mk (List.map_congr_left fun l hl => ?_)
  refine mapSymbols_congr (happends.quantifierFree c hc l hl) (fun x hx => ?_) fun f hf' => ?_
  · obtain ⟨hle, hlt⟩ := happends.vars x
      (List.mem_flatMap.2 ⟨c, hc, List.mem_flatMap.2 ⟨l, hl, hx⟩⟩)
    exact congrArg Var.mk (hv x.id hle hlt)
  · refine congrArg (FunSym.mk · f.origin) ?_
    rcases happends.funs f (List.mem_flatMap.2 ⟨c, hc, List.mem_flatMap.2 ⟨l, hl, hf'⟩⟩) with
      hmem | hminted
    · exact ht f hmem
    · exact hf f.id hminted.1 hminted.2.1

end Conversion

open Conversion

/-- **The clauses of a conjunction are those of its members**, as a multiset and up to an exchange
of the new symbols, one to one; the symbols of the formulas stay as they are. It does not matter by
which vocabularies the members are converted: in turn by a single one, or each by one of its own,
where the new symbols of different conversions are kept apart. -/
theorem convert_conj {ts : List Term} {voc : Vocabulary}
    (ht : ∀ t ∈ ts, t.WellFormed ∧ t.freeVars = []) (hw : ∀ t ∈ ts, t.Within voc) :
    ∃ cnf voc', convert {} (.conj ts) voc = (.ok cnf, voc') ∧
      (∀ w, (∀ t ∈ ts, t.Within w) → ∃ cnfs w' n, convertEach {} ts w = (.ok cnfs, w') ∧
        Numbering.Exchanges n w w' voc voc' ∧
        cnf.clauses.Perm ((cnfs.flatMap Cnf.clauses).map (Clause.renumber n))) ∧
      ∀ ws : Fin ts.length → Vocabulary, (∀ i, (ts.get i).Within (ws i)) →
        ∃ (cnfs : Fin ts.length → Cnf) (ws' : Fin ts.length → Vocabulary)
          (n : Fin ts.length → Numbering),
          (∀ i, convert {} (ts.get i) (ws i) = (.ok (cnfs i), ws' i)) ∧
          Numbering.Joins n ws ws' voc voc' ∧ (cnf.clauses : Multiset Clause) =
            ∑ i, ((cnfs i).clauses.map (Clause.renumber (n i)) : Multiset Clause) := by
  have hk : ∀ t ∈ ts, t.KeepsArities := fun t h => (ht t h).1.keepsArities
  obtain ⟨s, hadd⟩ := exists_add (keepsArities_conj hk) (start {} voc)
  have hrun := convert_of_add hadd
  have hlist : (List.finRange ts.length).map ts.get = ts := by
    rw [← List.ofFn_eq_map, List.ofFn_get]
  have hfamily := fun (ws : Fin ts.length → Vocabulary) (hws : ∀ i, (ts.get i).Within (ws i)) =>
    exists_joins (List.nodup_finRange _) List.mem_finRange
      (fun i => hk _ (ts.get_mem i)) (fun i => (ht _ (ts.get_mem i)).2) hws
      (fun i => hw _ (ts.get_mem i)) (hlist.symm ▸ hrun)
  refine ⟨_, _, hrun, fun w hw' => ?_, hfamily⟩
  obtain ⟨T, cnfs, rfl, hext, hruns, heach⟩ := exists_convertEach {} hk w
  have hstart : ∀ i : Fin ts.length, (ts.get i).Within (T i) := fun i =>
    (hw' _ (ts.get_mem i)).mono
      (monotone_nat_of_le_succ (fun i => (hext i).funs_le) (Nat.zero_le i))
  obtain ⟨cnfs', ws', n, hruns', hjoins, hclauses⟩ := hfamily (fun i => T i) hstart
  obtain ⟨rfl, rfl⟩ : cnfs' = cnfs ∧ ws' = fun i : Fin ts.length => T (i + 1) := by
    have hsame : ∀ i, cnfs' i = cnfs i ∧ ws' i = T (i + 1) := fun i => by
      simpa using (hruns' i).symm.trans (hruns i)
    exact ⟨funext fun i => (hsame i).1, funext fun i => (hsame i).2⟩
  obtain ⟨n', hexchanges, hvars, hfuns, hstays⟩ := hjoins.exists_exchanges hext
  refine ⟨_, _, n', heach, hexchanges, ?_⟩
  rw [← Multiset.coe_eq_coe, hclauses, List.ofFn_eq_map, List.flatMap_map, List.map_flatMap,
    coe_flatMap_eq_sum (List.nodup_finRange _) List.mem_finRange]
  refine Finset.sum_congr rfl fun i _ => congrArg _ ?_
  refine map_renumber_congr (hk _ (ts.get_mem i)) (hruns i)
    (fun k hle hlt => (hvars i k hle hlt).symm) (fun k hle hlt => (hfuns i k hle hlt).symm)
    fun g hg => ?_
  rw [hjoins.fnKept i g.id (hstart i g hg) (hw _ (ts.get_mem i) g hg)]
  exact (hstays g.id (hw' _ (ts.get_mem i) g hg)).symm

theorem convert_conj_scopedExample :
    (∀ t ∈ [scopedExample, scopedExample], t.WellFormed ∧ t.freeVars = []) ∧
      ∃ cnf voc' cnfs w' n,
        convert {} (.conj [scopedExample, scopedExample]) scopedVocabulary = (.ok cnf, voc') ∧
          convertEach {} [scopedExample, scopedExample] openVocabulary = (.ok cnfs, w') ∧
          Numbering.Exchanges n openVocabulary w' scopedVocabulary voc' ∧
          cnf.clauses.Perm ((cnfs.flatMap Cnf.clauses).map (Clause.renumber n)) := by
  obtain ⟨cnf, voc', hrun, heach, -⟩ :=
    convert_conj (show ∀ t ∈ [scopedExample, scopedExample], t.WellFormed ∧ t.freeVars = [] by
      decide) (show ∀ t ∈ [scopedExample, scopedExample], t.Within scopedVocabulary by decide)
  obtain ⟨cnfs, w', n, hrest⟩ := heach openVocabulary (by decide)
  exact ⟨by decide, cnf, voc', cnfs, w', n, hrun, hrest⟩

end ClauseForm
