import ClauseForm.Proofs.Conversion.Clausal
import ClauseForm.Proofs.Conversion.Mirroring

/-!
# The stages of a conversion side by side

Every stage of a conversion is mirrored by the same stage on a corresponding formula
(`ClauseForm.ConvertM.Mirrors`), if the definitions that go their own way are
(`ClauseForm.ConvertM.MirrorsTwins`). Only where the quantifiers are taken away
(`ClauseForm.ConvertM.mirrors_matrix`) may the formulas have other bound variables; from
then on, the one is the other one relabeled.
-/

namespace ClauseForm

open Conversion Term

namespace Scope

/-! ### Scopes that are linked -/

/-- Variables that stand for each other are bound to a term and its image, and the universal
variables around are each other's images. -/
structure Linked (ρ : Relabeling) (V : Var → Var → Prop) (σ σ' : Scope) : Prop where
  place : ∀ x y, V x y → Twin ρ (σ.place x) (σ'.place y)
  universals : ∃ xs : List Var, σ.universals = xs.map .var ∧
    σ'.universals = (xs.map ρ.var).map .var

variable {ρ : Relabeling} {V : Var → Var → Prop} {σ σ' : Scope}

theorem linked_empty (ρ : Relabeling) : Linked ρ (ρ.var · = ·) .empty .empty :=
  ⟨fun _ _ h => h ▸ Twin.var ρ _, [], rfl, rfl⟩

/-- Binding two variables to a term and its image links them, and hides what they were linked to
before. -/
theorem Linked.place_add (h : Linked ρ V σ σ') {t t' : Term} (ht : Twin ρ t t') (x y : Var) :
    ∀ a b, linkPair V (x, y) a b →
      Twin ρ (Scope.place (σ.add x t) a) (Scope.place (σ'.add y t') b) := by
  rintro a b (⟨rfl, rfl⟩ | ⟨ha, hb, hV⟩)
  · rw [Scope.place_add, if_pos rfl, Scope.place_add, if_pos rfl]
    exact ht
  · rw [Scope.place_add, if_neg ha, Scope.place_add, if_neg hb]
    exact h.place a b hV

end Scope

namespace ConvertM

open Scope

variable {ρ : Relabeling} {V : Var → Var → Prop} {σ σ' : Scope} {t t' : Term}

/-! ### New symbols -/

theorem mirrors_freshLike (x y : Var) :
    Mirrors ρ (ρ.var · = ·) (freshLike x) (freshLike y) := by
  intro s₁ s₂ a s₁' h hrun
  cases hrun
  refine ⟨_, _, rfl, h.vars 0, .of_eq (h.allot h.simplify 1 0 ?_ ?_ rfl rfl) rfl rfl⟩
  all_goals simp

theorem mirrors_newSkolem : Mirrors ρ (ρ.fn · = ·) newSkolem newSkolem := by
  intro s₁ s₂ a s₁' h hrun
  cases hrun
  refine ⟨_, _, rfl, h.funs 0 _, .of_eq (h.allot h.simplify 0 1 rfl rfl ?_ ?_) rfl rfl⟩
  all_goals simp

theorem mirrors_newDefinition : Mirrors ρ (ρ.fn · = ·) newDefinition newDefinition := by
  intro s₁ s₂ a s₁' h hrun
  cases hrun
  refine ⟨_, _, rfl, h.funs 0 _, .of_eq (h.allot h.simplify 0 1 rfl rfl ?_ ?_) rfl rfl⟩
  all_goals simp

/-- The name of a relabeled formula is the name of the formula, relabeled. -/
theorem mirrors_nameFor (h : Twin ρ t t') : Mirrors ρ (Twin ρ) (nameFor t) (nameFor t') := by
  refine mirrors_newDefinition.bind fun f f' hf => ?_
  have hatom :
      Twin ρ (f.appliedTo (t.freeVars.map .var)) (f'.appliedTo (t'.freeVars.map .var)) := by
    rw [← hf, h.eq, freeVars_relabel]
    exact .appliedTo f t.freeVars
  refine (Mirrors.report fun voc => ?_).bind fun _ _ _ => .pure hatom
  obtain ⟨name, hname⟩ := exists_text voc hatom.keepsArities_right
  obtain ⟨text, htext⟩ := exists_text voc h.keepsArities_right
  exact ⟨_, by rw [Event.entry, Event.text, hname, htext]; rfl⟩

/-! ### Taking quantifiers away -/

theorem mirrors_bindFresh {xs ys : List Var} (hlength : xs.length = ys.length)
    (hσ : Linked ρ V σ σ') :
    Mirrors ρ (Linked ρ (link V xs ys)) (σ.bindFresh xs) (σ'.bindFresh ys) := by
  induction xs generalizing ys V σ σ' with
  | nil =>
    obtain rfl := List.length_eq_zero_iff.1 hlength.symm
    exact .pure hσ
  | cons x xs ih =>
    cases ys with
    | nil => cases hlength
    | cons y ys =>
      rw [Scope.bindFresh, Scope.bindFresh]
      refine (mirrors_freshLike x y).bind fun u v huv => ?_
      refine ih (V := linkPair V (x, y)) (Nat.succ.inj hlength) ⟨?_, ?_⟩
      · exact hσ.place_add (huv ▸ Twin.var ρ u) x y
      · obtain ⟨us, hus, hus'⟩ := hσ.universals
        refine ⟨us ++ [u], ?_, ?_⟩
        · rw [universals_add_var, hus, List.map_append]
          rfl
        · rw [universals_add_var, hus', List.map_append, List.map_append, ← huv]
          rfl

theorem mirrors_bindSkolem {xs ys us : List Var} (hlength : xs.length = ys.length)
    (hσ : Linked ρ V σ σ') :
    Mirrors ρ (Linked ρ (link V xs ys)) (σ.bindSkolem (us.map .var) xs)
      (σ'.bindSkolem ((us.map ρ.var).map .var) ys) := by
  induction xs generalizing ys V σ σ' with
  | nil =>
    obtain rfl := List.length_eq_zero_iff.1 hlength.symm
    exact .pure hσ
  | cons x xs ih =>
    cases ys with
    | nil => cases hlength
    | cons y ys =>
      rw [Scope.bindSkolem, Scope.bindSkolem]
      refine mirrors_newSkolem.bind fun f g hfg => ?_
      subst hfg
      refine ih (V := linkPair V (x, y)) (Nat.succ.inj hlength) ⟨?_, ?_⟩
      · exact hσ.place_add (.appliedTo f us) x y
      · obtain ⟨vs, hvs, hvs'⟩ := hσ.universals
        exact ⟨vs, by rw [universals_add_appliedTo, hvs], by rw [universals_add_appliedTo, hvs']⟩

/-- **The matrix of a corresponding formula is the matrix of the formula, relabeled.** -/
theorem mirrors_matrix (h : Corresponds (ρ.fn · = ·) V t t') (hk : t.KeepsArities)
    (hσ : Linked ρ V σ σ') : Mirrors ρ (Twin ρ) (matrix t σ) (matrix t' σ') := by
  have hall : ∀ {ss ts : List Term} {σ σ' : Scope}, ss.length = ts.length →
      (∀ p ∈ ss.zip ts, Mirrors ρ (Twin ρ) (matrix p.1 σ) (matrix p.2 σ')) →
      Mirrors ρ (fun ms ms' => ms.length = ss.length ∧ List.Forall₂ (Twin ρ) ms ms')
        (ss.mapM (matrix · σ)) (ts.mapM (matrix · σ')) := by
    intro ss ts σ σ' hlength h
    have hzip : List.Forall₂ (fun a b => (a, b) ∈ ss.zip ts) ss ts :=
      List.forall₂_iff_zip.2 ⟨hlength, id⟩
    exact .mapM hzip fun a _ b hab => h (a, b) hab
  induction h generalizing σ σ' with
  | @constant V t h =>
    have hplain : ∀ σ : Scope, matrix t σ = pure t := by
      intro σ
      cases t <;> first | rfl | simp [isConstant, isNumeric] at h
    rw [hplain, hplain]
    exact .pure (.of_isConstant ρ h)
  | @var V x y h =>
    rw [matrix, matrix]
    exact .pure (hσ.place x y h)
  | @const V f g h =>
    rw [matrix, matrix]
    exact .pure (h ▸ Twin.appliedTo f [])
    all_goals simp
  | @call V f g ss ts hf hlength _ ih =>
    rw [matrix_call, matrix_call, matrixAll_eq_mapM, matrixAll_eq_mapM]
    refine (hall hlength fun p hp => ih p hp ?_ hσ).bind fun ms ms' hms => ?_
    · exact keepsArities_call.1 hk _ (List.of_mem_zip hp).1
    · exact .pure (hf ▸ .call f hms.2)
  | @node V op ss ts hlength _ ih =>
    obtain ⟨htakes, hk⟩ := keepsArities_node.1 hk
    rw [matrix_node, matrix_node, matrixAll_eq_mapM, matrixAll_eq_mapM]
    refine (hall hlength fun p hp => ih p hp (hk _ (List.of_mem_zip hp).1) hσ).bind
      fun ms ms' hms => ?_
    exact .pure (.node (hms.1 ▸ htakes) hms.2)
  | @quant V q xs ys body body' hlength _ ih =>
    have hbody := keepsArities_quant.1 hk
    cases q with
    | all =>
      rw [matrix, matrix]
      exact (mirrors_bindFresh hlength hσ).bind fun τ τ' hτ => ih hbody hτ
    | exist =>
      obtain ⟨us, hus, hus'⟩ := hσ.universals
      rw [matrix, matrix, hus, hus']
      exact (mirrors_bindSkolem hlength hσ).bind fun τ τ' hτ => ih hbody hτ

/-! ### Definitions -/

/-- The one way that definitions may go is mirrored by the other one, wherever a definition is
relabeled. -/
def MirrorsTwins (ρ : Relabeling) (define define' : Term → ConvertM Unit) : Prop :=
  ∀ t t', Twin ρ t t' → Mirrors ρ (fun _ _ => True) (define t) (define' t')

variable {define define' : Term → ConvertM Unit} {ts ts' : List Term}

/-- A formula's name in its place, once the name is defined. -/
theorem mirrors_named (hdefine : MirrorsTwins ρ define define') (definition : Term → Term → Term)
    (hdefinition : ∀ {a a'}, Twin ρ a a' → Twin ρ (definition t a) (definition t' a'))
    (h : Twin ρ t t') :
    Mirrors ρ (Twin ρ) (do let atom ← nameFor t; define (definition t atom); return atom)
      (do let atom ← nameFor t'; define' (definition t' atom); return atom) := by
  refine (mirrors_nameFor h).bind fun a a' ha => ?_
  exact (hdefine _ _ (hdefinition ha)).bind fun _ _ _ => .pure ha

/-! ### Writing biconditionals out -/

theorem mirrors_nameSide (hdefine : MirrorsTwins ρ define define') (h : Twin ρ t t') :
    Mirrors ρ (Twin ρ) (nameSide define t) (nameSide define' t') := by
  have hdefinition : ∀ {a a'}, Twin ρ a a' → Twin ρ (sideDefinition t a) (sideDefinition t' a') :=
    fun ha => .node rfl (.cons (h.imp ha) (.cons (ha.imp h) .nil))
  have hstrip : ∀ core, t.stripNegations = .ok core →
      ∃ core', t'.stripNegations = .ok core' ∧ core'.op? = core.op? := by
    intro core hcore
    exact ⟨core.relabel ρ, by rw [h.eq, stripNegations_relabel, hcore]; rfl, op?_relabel ρ core⟩
  unfold nameSide
  refine (Mirrors.ofExcept hstrip).bind fun core core' hop => ?_
  rw [hop]
  split
  · exact mirrors_named hdefine sideDefinition hdefinition h
  · exact .pure h

theorem mirrors_expandIff {l r l' r' : Term} (hl : Twin ρ l l') (hr : Twin ρ r r') :
    Mirrors ρ (Twin ρ) (expandIff l r) (expandIff l' r') := by
  have hdefinition : Twin ρ (sideDefinition l r) (sideDefinition l' r') :=
    .node rfl (.cons (hl.imp hr) (.cons (hr.imp hl) .nil))
  have hnormal : ∀ {t t'}, Twin ρ t t' → ∀ n, t.lowerNot true = .ok n →
      ∃ n', t'.lowerNot true = .ok n' ∧ Twin ρ n n' := by
    intro t t' ht n hn
    rw [lowerNot_eq_nnf ht.keepsArities] at hn
    cases hn
    exact ⟨_, lowerNot_eq_nnf ht.keepsArities_right true, ht.nnf true⟩
  exact .ofExcept (hnormal hdefinition)

/-- **Writing biconditionals out is mirrored**, names and definitions included. -/
theorem mirrors_expandIffs (hdefine : MirrorsTwins ρ define define') (h : Twin ρ t t') :
    Mirrors ρ (Twin ρ) (expandIffs define t) (expandIffs define' t') := by
  induction t using Term.induct generalizing t' with
  | node op args ih =>
    obtain ⟨htakes, args', rfl, hargs⟩ := Twin.node_iff.1 h
    rw [expandIffs, expandIffs, expandIffsAll_eq_mapM, expandIffsAll_eq_mapM]
    refine (Mirrors.mapM hargs fun a ha b hab => ih a ha hab).bind ?_
    rintro as bs ⟨hlength, hall⟩
    rw [← hlength] at htakes
    by_cases hop : op = .iff
    · subst hop
      obtain ⟨a₁, a₂, rfl⟩ := Op.exists_of_takes_two rfl htakes
      obtain ⟨b₁, _, h₁, hrest, rfl⟩ := List.forall₂_cons_left_iff.1 hall
      obtain ⟨b₂, _, h₂, hnil, rfl⟩ := List.forall₂_cons_left_iff.1 hrest
      obtain rfl := List.forall₂_nil_left_iff.1 hnil
      rw [if_pos rfl, if_pos rfl]
      refine (mirrors_nameSide hdefine h₁).bind fun l l' hl => ?_
      exact (mirrors_nameSide hdefine h₂).bind fun r r' hr => mirrors_expandIff hl hr
    · rw [if_neg hop, if_neg hop]
      exact .pure (.node htakes hall)
  | _ =>
    obtain rfl := h.eq
    rw [expandIffs_of_expanded define (.leaf rfl),
      expandIffs_of_expanded define' (.leaf (op?_relabel ..))]
    exact .pure h

/-! ### Raising conjunctions -/

theorem mirrors_nameConjunction (hdefine : MirrorsTwins ρ define define') (h : Twin ρ t t') :
    Mirrors ρ (Twin ρ) (nameConjunction define t) (nameConjunction define' t') := by
  have hop : t'.isOp .and = t.isOp .and := by rw [h.eq, isOp_relabel]
  unfold nameConjunction
  rw [hop]
  split
  · exact mirrors_named hdefine (fun t atom => .imp atom t) (fun ha => ha.imp h) h
  · exact .pure h

theorem mirrors_disjoin (hdefine : MirrorsTwins ρ define define') (h : List.Forall₂ (Twin ρ) ts ts') :
    Mirrors ρ (Twin ρ) (disjoin define ts) (disjoin define' ts') := by
  obtain ⟨rfl, hq, hk⟩ := Twin.forall₂_iff.1 h
  have hcount : (ts.map (relabel ρ)).countP (·.isOp .and) = ts.countP (·.isOp .and) := by
    simp [List.countP_map, Function.comp_def]
  rcases isOp_and_cases ts with hnone | ⟨hone, i, hi⟩ | hseveral
  · rw [disjoin_eq_pure define hnone, disjoin_eq_pure define' (by simpa using hnone)]
    exact .pure (.node rfl h)
  · rw [disjoin_eq_distribute define hone hi,
      disjoin_eq_distribute define' (i := i.cast (List.length_map _).symm) (by rwa [hcount])
        (by simpa using hi), ← distribute_relabel]
    refine .pure ⟨rfl, forall_parts_distribute i ?_ hq, forall_parts_distribute i ?_ hk⟩
    · exact fun op args _ => rfl
    · rintro op args (rfl | rfl) <;> rfl
  · rw [disjoin_eq_mapM define hseveral, disjoin_eq_mapM define' (by rwa [hcount])]
    refine (Mirrors.mapM h fun a _ b hab => mirrors_nameConjunction hdefine hab).bind ?_
    rintro as bs ⟨-, hall⟩
    exact .pure (.node rfl hall)

/-- **Raising conjunctions is mirrored**, names and definitions included. -/
theorem mirrors_raiseAnds (hdefine : MirrorsTwins ρ define define') (h : Twin ρ t t') :
    Mirrors ρ (Twin ρ) (raiseAnds define t) (raiseAnds define' t') := by
  induction t using Term.induct generalizing t' with
  | node op args ih =>
    obtain ⟨htakes, args', rfl, hargs⟩ := Twin.node_iff.1 h
    have hall := Mirrors.mapM hargs fun a ha b hab => ih a ha hab
    cases op with
    | and =>
      rw [raiseAnds, raiseAnds, raiseAndsAll_eq_mapM, raiseAndsAll_eq_mapM]
      exact hall.bind fun as bs h => .pure (.node rfl h.2)
    | or =>
      rw [raiseAnds, raiseAnds, raiseAndsAll_eq_mapM, raiseAndsAll_eq_mapM]
      exact hall.bind fun as bs h => mirrors_disjoin hdefine h.2
    | _ => exact .pure h
  | _ =>
    obtain rfl := h.eq
    rw [raiseAnds_of_op?_eq_none define rfl,
      raiseAnds_of_op?_eq_none define' (op?_relabel ..)]
    exact .pure h

/-! ### Gathering clauses -/

theorem mirrors_gatherClause (c : Clause) :
    Mirrors ρ (fun _ _ => True) (gatherClause c) (gatherClause (c.relabel ρ)) := by
  have hmodify : ∀ d : Clause, Mirrors ρ (fun _ _ => True)
      (modify fun s : Conversion => { s with clauses := s.clauses ++ [d] })
      (modify fun s : Conversion => { s with clauses := s.clauses ++ [d.relabel ρ] }) := by
    intro d s₁ s₂ a s₁' h hrun
    cases hrun
    exact ⟨(), _, rfl, trivial, ⟨h.simplify, h.vars, h.funs⟩, [d], rfl, rfl⟩
  unfold gatherClause
  refine .bind_get fun s₁ s₂ h => ?_
  rw [h.simplify]
  split
  · have htautology : ∀ b, c.isTautology = .ok b → ∃ b', (c.relabel ρ).isTautology = .ok b' ∧
        b = b' := fun b hb => ⟨b, by rwa [Clause.isTautology_relabel], rfl⟩
    refine (Mirrors.ofExcept htautology).bind fun b b' hb => ?_
    subst hb
    split
    · exact .pure trivial
    · have hwithout : ∀ d, c.withoutFalse = .ok d → ∃ d', (c.relabel ρ).withoutFalse = .ok d' ∧
          d.relabel ρ = d' := by
        intro d hd
        exact ⟨d.relabel ρ, by rw [Clause.withoutFalse_relabel, hd]; rfl, rfl⟩
      refine (Mirrors.ofExcept hwithout).bind fun d d' hd => ?_
      subst hd
      exact hmodify d
  · exact hmodify c

/-- The clauses gathered from a relabeled formula are those of the formula, relabeled. -/
theorem mirrors_gatherClauses (h : Twin ρ t t') :
    Mirrors ρ (fun _ _ => True) (gatherClauses t) (gatherClauses t') := by
  have hall : ∀ {ds ds' : List Term}, List.Forall₂ (Twin ρ) ds ds' → Mirrors ρ (fun _ _ => True)
      (ds.forM fun d => gatherClause ⟨d.flatten .or⟩)
      (ds'.forM fun d => gatherClause ⟨d.flatten .or⟩) := by
    intro ds ds' hds
    induction hds with
    | nil => exact .pure trivial
    | @cons d d' ds ds' hd _ ih =>
      have hclause : (⟨d'.flatten .or⟩ : Clause) = Clause.relabel ρ ⟨d.flatten .or⟩ := by
        rw [Clause.relabel, flatten_eq_leaves, flatten_eq_leaves, hd.eq, leaves_relabel]
      change Mirrors ρ _ (gatherClause ⟨d.flatten .or⟩ >>= fun _ => ds.forM _)
        (gatherClause ⟨d'.flatten .or⟩ >>= fun _ => ds'.forM _)
      rw [hclause]
      exact (mirrors_gatherClause _).bind fun _ _ _ => ih
  unfold gatherClauses
  rw [flatten_eq_leaves, flatten_eq_leaves]
  exact hall (h.leaves .and)

/-! ### Whole conversions -/

theorem mirrors_report_normalized {n n' : Term} (hn : n'.KeepsArities) :
    Mirrors ρ (fun _ _ => True) (report (.normalized n)) (report (.normalized n')) := by
  refine .report fun voc => ?_
  obtain ⟨text, htext⟩ := exists_text voc hn
  exact ⟨_, by rw [Event.entry, Event.text, htext]; rfl⟩

/-- **A pass over a corresponding formula mirrors the pass over the formula**, if definitions
do. -/
theorem mirrors_convertBy (hdefine : MirrorsTwins ρ define define')
    (h : Corresponds (ρ.fn · = ·) (ρ.var · = ·) t t') (hk : t.KeepsArities) :
    Mirrors ρ (fun _ _ => True) (convertBy define t) (convertBy define' t') := by
  have hs := hk.signed true
  have hk' := h.keepsArities hk
  have hn := h.nnf hs
  have hnk := hs.keepsArities_nnf hk
  unfold convertBy
  rw [lowerNot_eq_nnf hk, lowerNot_eq_nnf hk']
  change Mirrors ρ _ (report _ >>= _) (report _ >>= _)
  refine (mirrors_report_normalized (hn.keepsArities hnk)).bind fun _ _ _ => ?_
  refine (mirrors_matrix hn hnk (linked_empty ρ)).bind fun m m' hm => ?_
  refine (mirrors_expandIffs hdefine hm).bind fun e e' he => ?_
  refine (mirrors_raiseAnds hdefine he).bind fun c c' hc => ?_
  refine (Mirrors.report fun voc => ?_).bind fun _ _ _ => mirrors_gatherClauses hc
  obtain ⟨text, htext⟩ := exists_text voc hc.keepsArities_right
  exact ⟨_, by rw [Event.entry, Event.text, htext]; rfl⟩

/-- **Converting a corresponding formula mirrors converting the formula**, to whatever depth
definitions are nested. -/
theorem mirrors_convertWithin (limit : Nat)
    (h : Corresponds (ρ.fn · = ·) (ρ.var · = ·) t t') (hk : t.KeepsArities) :
    Mirrors ρ (fun _ _ => True) (convertWithin limit t) (convertWithin limit t') := by
  induction limit generalizing t t' with
  | zero =>
    intro s₁ s₂ a s₁' _ hrun
    cases hrun
  | succ limit ih =>
    exact mirrors_convertBy (fun _ _ htwin => ih htwin.corresponds htwin.keepsArities) h hk

/-- So the definitions of names are mirrored. -/
theorem mirrorsTwins_convertWithin (limit : Nat) :
    MirrorsTwins ρ (convertWithin limit) (convertWithin limit) :=
  fun _ _ h => mirrors_convertWithin limit h.corresponds h.keepsArities

/-- Converting a formula between the two reports is mirrored, if converting it is. -/
theorem mirrors_reported {way way' : Term → ConvertM Unit} (before before' : Nat)
    (hk' : t'.KeepsArities) (h : Mirrors ρ (fun _ _ => True) (way t) (way' t')) :
    Mirrors ρ (fun _ _ => True)
      (do
        report (.converting t)
        way t
        let total := (← get).clauses.length
        report (.produced (total - before) total))
      (do
        report (.converting t')
        way' t'
        let total := (← get).clauses.length
        report (.produced (total - before') total)) := by
  refine (Mirrors.report fun voc => ?_).bind fun _ _ _ => ?_
  · obtain ⟨text, htext⟩ := exists_text voc hk'
    exact ⟨_, by rw [Event.entry, Event.text, htext]; rfl⟩
  · refine h.bind fun _ _ _ => ?_
    exact .bind_get fun s₁ s₂ _ => .report fun voc => ⟨_, rfl⟩

/-- Adding a corresponding formula mirrors adding the formula. -/
theorem mirrors_addClosed (before before' : Nat)
    (h : Corresponds (ρ.fn · = ·) (ρ.var · = ·) t t') (hk : t.KeepsArities) :
    Mirrors ρ (fun _ _ => True) (addClosed before t) (addClosed before' t') :=
  mirrors_reported before before' (h.keepsArities hk) (mirrors_convertWithin nestingLimit h hk)

/-- **A formula that keeps the argument counts is added without a fault**, whatever was gathered
before, and whether or not a journal is kept. -/
theorem exists_add (hk : t.KeepsArities) (s : Conversion) : ∃ s', add t s = .ok () s' := by
  obtain ⟨u, hu, huk⟩ := exists_prepared_keepsArities s.config hk
  have hclosed := keepsArities_universalClosure huk
  -- where no journal is kept, nothing can go wrong
  obtain ⟨_, s₁, hrun, -⟩ := ensures_add_of (s := s.quiet) (P := fun _ => True) rfl hu
    ((ensures_convertWithin_clausal 0 hclosed rfl).mono fun _ _ h => ⟨h.quiet rfl, trivial⟩)
  rw [add_eq_addClosed (s := s.quiet) hu] at hrun
  have hsame : Corresponds (Relabeling.refl.fn · = ·) (Relabeling.refl.var · = ·)
      u.universalClosure u.universalClosure := .refl (fun _ => rfl) (fun _ => rfl) _
  have halike : Alike .refl s.quiet s := ⟨rfl, fun _ => rfl, fun _ _ => rfl⟩
  obtain ⟨_, s', hrun', -⟩ := mirrors_addClosed _ s.clauses.length hsame hclosed s.quiet s () s₁
    halike hrun
  exact ⟨s', by rw [add_eq_addClosed hu]; exact hrun'⟩

end ConvertM

end ClauseForm
