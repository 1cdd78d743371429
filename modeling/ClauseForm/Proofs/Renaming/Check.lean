import ClauseForm.Proofs.Renaming.Pairs

/-!
# What a check finds out

Two terms can be turned into each other by renaming symbols only if they resemble each other
(`ClauseForm.Term.Resembles`): they have one skeleton, and where they call functions, the
heads of these calls may be paired. If so, a check pairs the symbols of the one with
those of the other, in order, and does nothing else
(`ClauseForm.Renaming.check_eq_some_iff`). Whether this succeeds does not depend on the
order: it does if there is an injective map at all that turns the one term into the
other (`ClauseForm.Renaming.Turns`), and then the pairs added are those of the map
(`ClauseForm.Renaming.check_iff_exists_turns`).
-/

namespace ClauseForm

namespace Term

variable {a b : Term}

theorem length_calls_eq (h : a.skeleton = b.skeleton) : a.calls.length = b.calls.length := by
  have hlength : ∀ t : Term, t.calls.length = t.skeleton.calls.length := by
    intro t
    rw [skeleton, calls_mapSymbols, List.length_map]
  rw [hlength a, hlength b, h]

/-- The terms have one skeleton, and at each call the heads may be paired. -/
structure Resembles (a b : Term) : Prop where
  skeleton : a.skeleton = b.skeleton
  heads : ∀ p ∈ a.calls.zip b.calls, Renaming.headsAgree p.1 p.2 = true

theorem resembles_iff : a.Resembles b ↔ a.skeleton = b.skeleton ∧
    ∀ p ∈ a.calls.zip b.calls, Renaming.headsAgree p.1 p.2 = true :=
  ⟨fun h => ⟨h.skeleton, h.heads⟩, fun h => ⟨h.1, h.2⟩⟩

theorem Resembles.refl (t : Term) : t.Resembles t := by
  refine ⟨rfl, fun p hp => ?_⟩
  have hsame : p.1 = p.2 := (List.forall₂_iff_zip.1 (List.forall₂_same.2 fun _ _ => rfl)).2 hp
  rw [Renaming.headsAgree, hsame]
  simp

/-- A constant resembles nothing but itself. -/
theorem resembles_of_isConstant (h : a.isConstant = true) : a.Resembles b ↔ a = b := by
  have hskel : ∀ {t : Term}, t.isConstant = true → t.skeleton = t := by
    intro t ht
    cases t <;> first | rfl | simp [isConstant, isNumeric] at ht
  have hconstant : ∀ t : Term, t.skeleton.isConstant = t.isConstant := by
    intro t
    cases t <;> rfl
  constructor
  · rintro ⟨hab, -⟩
    have hb : b.isConstant = true := by rwa [← hconstant, ← hab, hconstant]
    rwa [hskel h, hskel hb] at hab
  · rintro rfl
    exact .refl a

/-- Several terms resemble several others, place by place. -/
def AllResemble (ss ts : List Term) : Prop :=
  ss.map skeleton = ts.map skeleton ∧
    ∀ p ∈ (ss.flatMap calls).zip (ts.flatMap calls), Renaming.headsAgree p.1 p.2 = true

theorem allResemble_cons {ss ts : List Term} :
    AllResemble (a :: ss) (b :: ts) ↔ a.Resembles b ∧ AllResemble ss ts := by
  rw [AllResemble, List.map_cons, List.map_cons, List.cons.injEq, List.flatMap_cons,
    List.flatMap_cons]
  constructor
  · rintro ⟨⟨hfirst, hrest⟩, hheads⟩
    rw [List.zip_append (length_calls_eq hfirst), List.forall_mem_append] at hheads
    exact ⟨⟨hfirst, hheads.1⟩, hrest, hheads.2⟩
  · rintro ⟨⟨hfirst, hhead⟩, hrest, hheads⟩
    rw [List.zip_append (length_calls_eq hfirst), List.forall_mem_append]
    exact ⟨⟨hfirst, hrest⟩, hhead, hheads⟩

theorem resembles_call {f g : FunSym} {ss ts : List Term} :
    (Term.call f ss).Resembles (.call g ts) ↔
      Renaming.headsAgree f g = true ∧ AllResemble ss ts := by
  have hskel : (Term.call f ss).skeleton = (Term.call g ts).skeleton ↔
      ss.map Term.skeleton = ts.map Term.skeleton := by
    simp only [Term.skeleton, mapSymbols_call, Term.call.injEq, true_and]
    exact Iff.rfl
  constructor
  · rintro ⟨h, hheads⟩
    rw [calls_call, calls_call, List.zip_cons_cons, List.forall_mem_cons] at hheads
    exact ⟨hheads.1, hskel.1 h, hheads.2⟩
  · rintro ⟨hhead, h, hheads⟩
    refine ⟨hskel.2 h, ?_⟩
    rw [calls_call, calls_call, List.zip_cons_cons, List.forall_mem_cons]
    exact ⟨hhead, hheads⟩

theorem resembles_node {op op' : Op} {ss ts : List Term} :
    (Term.node op ss).Resembles (.node op' ts) ↔ op = op' ∧ AllResemble ss ts := by
  have hskel : (Term.node op ss).skeleton = (Term.node op' ts).skeleton ↔
      op = op' ∧ ss.map Term.skeleton = ts.map Term.skeleton := by
    simp only [Term.skeleton, mapSymbols_node, Term.node.injEq]
    exact Iff.rfl
  constructor
  · rintro ⟨h, hheads⟩
    exact ⟨(hskel.1 h).1, (hskel.1 h).2, by simpa only [calls_node] using hheads⟩
  · rintro ⟨hop, h, hheads⟩
    exact ⟨hskel.2 ⟨hop, h⟩, by simpa only [calls_node] using hheads⟩

theorem resembles_quant {q q' : Quantifier} {xs ys : List Var} :
    (Term.quant q xs a).Resembles (.quant q' ys b) ↔
      q = q' ∧ xs.length = ys.length ∧ a.Resembles b := by
  have hskel : (Term.quant q xs a).skeleton = (Term.quant q' ys b).skeleton ↔
      q = q' ∧ xs.length = ys.length ∧ a.skeleton = b.skeleton := by
    simp only [Term.skeleton, mapSymbols_quant, Term.quant.injEq, List.map_const',
      List.replicate_inj]
    tauto
  constructor
  · rintro ⟨h, hheads⟩
    obtain ⟨hq, hlength, h⟩ := hskel.1 h
    exact ⟨hq, hlength, h, by simpa only [calls_quant] using hheads⟩
  · rintro ⟨hq, hlength, h, hheads⟩
    exact ⟨hskel.2 ⟨hq, hlength, h⟩, by simpa only [calls_quant] using hheads⟩

end Term

namespace Renaming

open Term

variable {r r' : Renaming} {a b : Term} {ss ts : List Term}

/-! ### A check pairs symbols in order -/

/-- A check of several terms is one check after the other, each of which pairs symbols. -/
theorem checkAll_eq_some_iff
    (h : ∀ s ∈ ss, ∀ {r r' : Renaming} {t : Term}, r.check s t = some r' ↔
      s.Resembles t ∧ r.pairAll (s.symbols.zip t.symbols) = some r') :
    (ss.length = ts.length ∧ r.checkAll ss ts = some r') ↔
      AllResemble ss ts ∧ r.pairAll ((ss.flatMap symbols).zip (ts.flatMap symbols)) = some r' := by
  induction ss generalizing ts r with
  | nil =>
    cases ts with
    | nil => exact and_congr_left fun _ => iff_of_true rfl ⟨rfl, by simp⟩
    | cons t ts => simp [AllResemble]
  | cons s ss ih =>
    cases ts with
    | nil => simp [AllResemble]
    | cons t ts =>
      rw [List.forall_mem_cons] at h
      have hrun : r.checkAll (s :: ss) (t :: ts) = (r.check s t).bind (·.checkAll ss ts) := by
        rw [checkAll]
        cases r.check s t <;> rfl
      rw [hrun, allResemble_cons, List.flatMap_cons, List.flatMap_cons, List.length_cons,
        List.length_cons, Nat.succ_inj]
      constructor
      · rintro ⟨hlength, hrun⟩
        obtain ⟨r₁, hfirst, hrest⟩ := Option.bind_eq_some_iff.1 hrun
        obtain ⟨hsim, hpairs⟩ := h.1.1 hfirst
        obtain ⟨hsims, hpairs'⟩ := (ih h.2).1 ⟨hlength, hrest⟩
        rw [List.zip_append (length_symbols_eq hsim.skeleton), pairAll_append, hpairs]
        exact ⟨⟨hsim, hsims⟩, hpairs'⟩
      · rintro ⟨⟨hsim, hsims⟩, hpairs⟩
        rw [List.zip_append (length_symbols_eq hsim.skeleton), pairAll_append] at hpairs
        obtain ⟨r₁, hfirst, hpairs'⟩ := Option.bind_eq_some_iff.1 hpairs
        obtain ⟨hlength, hrest⟩ := (ih h.2).2 ⟨hsims, hpairs'⟩
        exact ⟨hlength, Option.bind_eq_some_iff.2 ⟨r₁, h.1.2 ⟨hsim, hfirst⟩, hrest⟩⟩

/-- Bound variables are paired in order. -/
theorem pairVars_eq_pairAll (r : Renaming) (xs ys : List Var) :
    r.pairVars xs ys = r.pairAll ((xs.map (.var ·.id)).zip (ys.map (.var ·.id))) := by
  induction xs generalizing ys r with
  | nil => cases ys <;> rfl
  | cons x xs ih =>
    cases ys with
    | nil => rfl
    | cons y ys =>
      rw [pairVars, List.map_cons, List.map_cons, List.zip_cons_cons, pairAll_cons]
      cases r.pair (.var x.id) (.var y.id) with
      | none => rfl
      | some r₁ => exact ih r₁ ys

/-- A constant is compared with the other term. -/
theorem check_of_isConstant (h : a.isConstant = true) (r : Renaming) (b : Term) :
    r.check a b = if a = b then some r else none := by
  cases a <;> first
    | simp [isConstant, isNumeric] at h; done
    | rw [check] <;> simp

/-- **A check pairs the symbols of two terms in order**, if they resemble each other, and fails
otherwise. -/
theorem check_eq_some_iff : r.check a b = some r' ↔
    a.Resembles b ∧ r.pairAll (a.symbols.zip b.symbols) = some r' := by
  have hnil : ∀ {r : Renaming}, r.pairAll [] = some r := rfl
  induction a using Term.induct generalizing b r r' with
  | call f ss ih =>
    cases b with
    | call g ts =>
      have hrun : r.check (.call f ss) (.call g ts) = some r' ↔ headsAgree f g = true ∧
          ∃ r₁, r.pair (.fn f.id) (.fn g.id) = some r₁ ∧
            ss.length = ts.length ∧ r₁.checkAll ss ts = some r' := by
        rw [check]
        cases r.pair (.fn f.id) (.fn g.id) <;> simp [and_assoc, and_left_comm]
      simp only [hrun, checkAll_eq_some_iff ih, resembles_call, symbols_call, List.zip_cons_cons,
        pairAll_cons, Option.bind_eq_some_iff]
      constructor
      · rintro ⟨hhead, r₁, hpair, hsims, hpairs⟩
        exact ⟨⟨hhead, hsims⟩, r₁, hpair, hpairs⟩
      · rintro ⟨⟨hhead, hsims⟩, r₁, hpair, hpairs⟩
        exact ⟨hhead, r₁, hpair, hsims, hpairs⟩
    | _ => simp [check, resembles_iff, Term.skeleton]
  | node op ss ih =>
    cases b with
    | node op' ts =>
      rw [check, Option.ite_none_right_eq_some, and_assoc, checkAll_eq_some_iff ih, resembles_node,
        symbols_node, symbols_node, and_assoc]
    | _ => simp [check, resembles_iff, Term.skeleton]
  | quant q xs body ih =>
    cases b with
    | quant q' ys body' =>
      have hrun : r.check (.quant q xs body) (.quant q' ys body') = some r' ↔
          (q = q' ∧ xs.length = ys.length) ∧
            ∃ r₁, r.pairVars xs ys = some r₁ ∧ r₁.check body body' = some r' := by
        rw [check]
        cases r.pairVars xs ys <;> simp
      have hzip : xs.length = ys.length → (Term.quant q xs body).symbols.zip
          (Term.quant q' ys body').symbols =
            (xs.map (.var ·.id)).zip (ys.map (.var ·.id)) ++ body.symbols.zip body'.symbols := by
        intro hlength
        rw [symbols_quant, symbols_quant, List.zip_append (by simpa using hlength)]
      rw [hrun, resembles_quant]
      constructor
      · rintro ⟨⟨hq, hlength⟩, r₁, hvars, hbody⟩
        obtain ⟨hsim, hpairs⟩ := ih.1 hbody
        rw [hzip hlength, pairAll_append, ← pairVars_eq_pairAll, hvars]
        exact ⟨⟨hq, hlength, hsim⟩, hpairs⟩
      · rintro ⟨⟨hq, hlength, hsim⟩, hpairs⟩
        rw [hzip hlength, pairAll_append, ← pairVars_eq_pairAll] at hpairs
        obtain ⟨r₁, hvars, hpairs⟩ := Option.bind_eq_some_iff.1 hpairs
        exact ⟨⟨hq, hlength⟩, r₁, hvars, ih.2 ⟨hsim, hpairs⟩⟩
    | _ => simp [check, resembles_iff, Term.skeleton]
  | var x =>
    cases b with
    | var y => simp [check, resembles_iff, Term.skeleton, symbols, topSymbols, calls, called?,
        List.filterMap_cons, pairAll_cons, hnil]
    | _ => simp [check, resembles_iff, Term.skeleton]
  | const f =>
    cases b with
    | const g => simp [check, resembles_iff, Term.skeleton, symbols, topSymbols, calls, called?,
        List.filterMap_cons, pairAll_cons, hnil]
    | _ => simp [check, resembles_iff, Term.skeleton]
  | _ =>
    rw [check_of_isConstant rfl, resembles_of_isConstant rfl, Option.ite_none_right_eq_some]
    rfl

/-! ### Turning one term into another -/

/-- What a map makes of a symbol: its image, if it has one. -/
def imageIn (m : Symbol → Option Symbol) (s : Symbol) : Symbol :=
  (m s).getD s

end Renaming

/-- The term with the number of every symbol replaced by that of its image. The function symbols
keep their origins. -/
def Term.renamed (m : Symbol → Option Symbol) (t : Term) : Term :=
  t.mapSymbols (fun x => ⟨(Renaming.imageIn m (.var x.id)).number⟩)
    fun f => { f with id := (Renaming.imageIn m (.fn f.id)).number }

namespace Renaming

open Term

variable {m : Symbol → Option Symbol} {r r' : Renaming} {a b : Term}

/-- The map turns one term into another, but for the origins of function symbols: it has an image
for every symbol of the first, bound variables included, and with every symbol replaced by its image
this is the second. At each call, the heads are one symbol, or one of them was generated. -/
structure Turns (m : Symbol → Option Symbol) (a b : Term) : Prop where
  defined : ∀ s ∈ a.symbols, (m s).isSome = true
  renamed : (a.renamed m).eraseOrigins = b.eraseOrigins
  heads : ∀ p ∈ a.calls.zip b.calls,
    p.1.id = p.2.id ∨ p.1.origin.isGenerated = true ∨ p.2.origin.isGenerated = true

theorem symbols_renamed (hm : IsMatching m) (t : Term) :
    (t.renamed m).symbols = t.symbols.map (imageIn m) := by
  have hsort : ∀ s, (imageIn m s).isVar = s.isVar := by
    intro s
    unfold imageIn
    cases hs : m s with
    | none => rfl
    | some u => exact hm.sort hs
  refine symbols_mapSymbols (fun x => ?_) (fun f => ?_) t
  · exact Symbol.eq_of_isVar_eq (hsort (.var x.id)).symm rfl
  · exact Symbol.eq_of_isVar_eq (hsort (.fn f.id)).symm rfl

/-- **A map turns a term into another one exactly when the two resemble each other and it takes the
symbols of the first to those of the second, in order.** -/
theorem IsMatching.turns_iff (hm : IsMatching m) :
    Turns m a b ↔ a.Resembles b ∧ ∀ p ∈ a.symbols.zip b.symbols, m p.1 = some p.2 := by
  have hheads : (∀ p ∈ a.calls.zip b.calls,
        p.1.id = p.2.id ∨ p.1.origin.isGenerated = true ∨ p.2.origin.isGenerated = true) ↔
      ∀ p ∈ a.calls.zip b.calls, headsAgree p.1 p.2 = true := by
    simp [headsAgree, or_assoc]
  have hskel : (a.renamed m).skeleton = a.skeleton := skeleton_mapSymbols ..
  constructor
  · rintro ⟨hdefined, hrenamed, h⟩
    obtain ⟨hskeleton, hsymbols⟩ := eraseOrigins_eq_iff.1 hrenamed
    rw [symbols_renamed hm] at hsymbols
    refine ⟨⟨hskel ▸ hskeleton, hheads.1 h⟩, ?_⟩
    have hall : List.Forall₂ (fun s u => m s = some u) a.symbols b.symbols := by
      rw [← hsymbols, List.forall₂_map_right_iff, List.forall₂_same]
      intro s hs
      obtain ⟨u, hu⟩ := Option.isSome_iff_exists.1 (hdefined s hs)
      rw [imageIn, hu, Option.getD_some]
    exact fun p hp => (List.forall₂_iff_zip.1 hall).2 hp
  · rintro ⟨hsim, hpairs⟩
    have hall : List.Forall₂ (fun s u => m s = some u) a.symbols b.symbols :=
      List.forall₂_iff_zip.2 ⟨length_symbols_eq hsim.skeleton, fun hp => hpairs _ hp⟩
    refine ⟨fun s hs => ?_, eraseOrigins_eq_iff.2 ⟨hskel.trans hsim.skeleton, ?_⟩,
      hheads.2 hsim.heads⟩
    · obtain ⟨u, -, hu⟩ := exists_of_mem_forall₂ hall.flip s hs
      exact hu ▸ rfl
    · rw [symbols_renamed hm]
      have himage : List.Forall₂ (fun s u => imageIn m s = u) a.symbols b.symbols :=
        hall.imp fun s u hsu => by rw [imageIn, hsu, Option.getD_some]
      exact List.forall₂_eq_eq_eq ▸ List.forall₂_map_left_iff.2 himage

/-! ### When a check succeeds -/

/-- The renamings that successful checks lead to, from the empty one. -/
inductive Reached : Renaming → Prop
  /-- Nothing was checked. -/
  | start : Reached {}
  /-- Two terms were checked. -/
  | check {r r' : Renaming} {a b : Term} : Reached r → r.check a b = some r' → Reached r'
  /-- Two lists of terms were checked, such as the literals of two clauses. -/
  | checkList {r r' : Renaming} {ss ts : List Term} : Reached r → r.checkList ss ts = some r' →
    Reached r'

/-- The pairs that a check adds are of one sort. -/
theorem isVar_of_resembles (h : a.Resembles b) :
    ∀ p ∈ a.symbols.zip b.symbols, p.2.isVar = p.1.isVar := by
  have hsorts : a.symbols.map Symbol.isVar = b.symbols.map Symbol.isVar := by
    rw [← sorts_skeleton a, ← sorts_skeleton b, h.skeleton]
  have hall : List.Forall₂ (fun s u : Symbol => s.isVar = u.isVar) a.symbols b.symbols := by
    rwa [← List.forall₂_eq_eq_eq, List.forall₂_map_left_iff, List.forall₂_map_right_iff] at hsorts
  exact fun p hp => ((List.forall₂_iff_zip.1 hall).2 hp).symm

/-- A check keeps a renaming coherent, and adds the pairs of corresponding symbols. -/
theorem Coherent.check (h : r.Coherent) (hrun : r.check a b = some r') :
    r'.Coherent ∧
      ∀ x y, r'.image? x = some y ↔ (x, y) ∈ a.symbols.zip b.symbols ∨ r.image? x = some y := by
  obtain ⟨hsim, hpairs⟩ := check_eq_some_iff.1 hrun
  exact h.pairAll (isVar_of_resembles hsim) hpairs

theorem checkList_eq_check (r : Renaming) (ss ts : List Term) :
    r.checkList ss ts = r.check (.node .or ss) (.node .or ts) := by
  simp [checkList, Renaming.check]

theorem Reached.coherent (h : r.Reached) : r.Coherent := by
  induction h with
  | start => exact coherent_empty
  | check _ hrun ih => exact (ih.check hrun).1
  | checkList _ hrun ih =>
    rw [checkList_eq_check] at hrun
    exact (ih.check hrun).1

/-- What a matching pairs is found by a check. -/
theorem IsMatching.exists_check (hm : IsMatching m) (h : r.Coherent) (hr : r.ExtendedBy m)
    (hturns : Turns m a b) : ∃ r', r.check a b = some r' := by
  obtain ⟨hsim, hpairs⟩ := hm.turns_iff.1 hturns
  obtain ⟨r', hrun⟩ := hm.exists_pairAll h hr hpairs
  exact ⟨r', check_eq_some_iff.2 ⟨hsim, hrun⟩⟩

/-- A check finds a matching: that of its own pairs. -/
theorem Coherent.turns_of_check (h : r.Coherent) (hrun : r.check a b = some r') :
    IsMatching r'.image? ∧ r.ExtendedBy r'.image? ∧ Turns r'.image? a b := by
  obtain ⟨h', himage⟩ := h.check hrun
  refine ⟨h'.isMatching, fun s u hsu => (himage s u).2 (Or.inr hsu), ?_⟩
  exact h'.isMatching.turns_iff.2 ⟨(check_eq_some_iff.1 hrun).1,
    fun p hp => (himage p.1 p.2).2 (Or.inl hp)⟩

/-- **A check succeeds exactly when there is a map to be found**, injective, with all the pairs that
are there already, and turning the one term into the other. Then the pairs that the check adds are
those of every such map, at the symbols of the first term; all others stay as they were, the two
directions stay inverse to each other, and the size is the number of pairs. -/
theorem check_iff_exists_turns (hr : r.Reached) (a b : Term) :
    ((r.check a b).isSome = true ↔ ∃ m, IsMatching m ∧ r.ExtendedBy m ∧ Turns m a b) ∧
      ∀ r', r.check a b = some r' →
        (∀ m, IsMatching m → r.ExtendedBy m → Turns m a b →
          ∀ s, r'.image? s = if s ∈ a.symbols then m s else r.image? s) ∧
        r.ExtendedBy r'.image? ∧
        (∀ s u, r'.forward.get? s = some u ↔ r'.backward.get? u = some s) ∧
        {p : Symbol × Symbol | r'.image? p.1 = some p.2}.encard = r'.size := by
  have h := hr.coherent
  refine ⟨?_, fun r' hrun => ?_⟩
  · rw [Option.isSome_iff_exists]
    constructor
    · rintro ⟨r', hrun⟩
      exact ⟨r'.image?, h.turns_of_check hrun⟩
    · rintro ⟨m, hm, hext, hturns⟩
      exact hm.exists_check h hext hturns
  · obtain ⟨h', himage⟩ := h.check hrun
    refine ⟨fun m hm hext hturns s => ?_, (h.turns_of_check hrun).2.1, fun s u => h'.inverse,
      h'.encard_eq⟩
    obtain ⟨hsim, hpairs⟩ := hm.turns_iff.1 hturns
    have hlength := length_symbols_eq hsim.skeleton
    split
    · -- the symbol stands somewhere in the first term, over against its image
      rename_i hs
      obtain ⟨i, hi, rfl⟩ := List.getElem_of_mem hs
      have hmem : (a.symbols[i], b.symbols[i]) ∈ a.symbols.zip b.symbols :=
        List.mem_iff_getElem.2 ⟨i, by simpa [hlength] using hlength ▸ hi, by simp⟩
      rw [(himage _ _).2 (Or.inl hmem), hpairs _ hmem]
    · rename_i hs
      refine Option.ext fun u => ?_
      rw [himage, or_iff_right fun hmem => hs (List.of_mem_zip hmem).1]

/-- A renaming that pairs one variable with another. -/
def pairedExample : Renaming :=
  ⟨Bindings.empty.add (.var 0) (.var 5), Bindings.empty.add (.var 5) (.var 0)⟩

/-- The term `p(X) | ![Y]: p(f(Y))`, in which `f` is a Skolem function. -/
def leftExample : Term :=
  .disj [.call ⟨0, .declared⟩ [.var ⟨0⟩],
    .quant .all [⟨1⟩] (.call ⟨0, .declared⟩ [.call ⟨1, .skolem⟩ [.var ⟨1⟩]])]

/-- The term `p(V) | ![X]: p(g(X))`, in which `g` is a Skolem function. -/
def rightExample : Term :=
  .disj [.call ⟨0, .declared⟩ [.var ⟨5⟩],
    .quant .all [⟨0⟩] (.call ⟨0, .declared⟩ [.call ⟨7, .skolem⟩ [.var ⟨0⟩]])]

theorem check_iff_exists_turns_paired :
    pairedExample.Reached ∧
      (∃ m, IsMatching m ∧ pairedExample.ExtendedBy m ∧ Turns m leftExample rightExample) ∧
      ∃ r', pairedExample.check leftExample rightExample = some r' ∧
        pairedExample.ExtendedBy r'.image? ∧
        {p : Symbol × Symbol | r'.image? p.1 = some p.2}.encard = 4 := by
  have hr : pairedExample.Reached := .check (a := .var ⟨0⟩) (b := .var ⟨5⟩) .start rfl
  obtain ⟨hiff, hall⟩ := check_iff_exists_turns hr leftExample rightExample
  obtain ⟨-, hext, -, hsize⟩ := hall _ rfl
  exact ⟨hr, hiff.1 rfl, _, rfl, hext, hsize⟩

/-! ### Clause sets -/

theorem checkClauses_eq_checkAll (r : Renaming) (cs ds : List Clause) :
    r.checkClauses cs ds = r.checkAll (cs.map Clause.toTerm) (ds.map Clause.toTerm) := by
  induction cs generalizing ds r with
  | nil => cases ds <;> simp [checkClauses, checkAll]
  | cons c cs ih =>
    cases ds with
    | nil => simp [checkClauses, checkAll]
    | cons d ds =>
      have hfirst : r.checkClause c d = r.check c.toTerm d.toTerm := checkList_eq_check ..
      rw [checkClauses, List.map_cons, List.map_cons, checkAll, hfirst]
      cases r.check c.toTerm d.toTerm with
      | none => rfl
      | some r₁ => exact ih r₁ ds

/-- Clause sets are compared as terms. -/
theorem isomorphic_toTerm (c d : Cnf) : c.toTerm.isomorphic d.toTerm = c.isomorphic d := by
  rw [Term.isomorphic, Cnf.toTerm, Cnf.toTerm, Term.conj, Term.conj, check, Cnf.isomorphic,
    checkClauses_eq_checkAll]
  by_cases hlength : c.clauses.length = d.clauses.length <;> simp [hlength]

/-- Clause sets that a matching turns into each other are equal up to renaming. -/
theorem IsMatching.isomorphic (hm : IsMatching m) {c d : Cnf} (h : Turns m c.toTerm d.toTerm) :
    c.isomorphic d = true := by
  obtain ⟨r', hrun⟩ := hm.exists_check coherent_empty (by simp [ExtendedBy, image?]) h
  rw [← isomorphic_toTerm, Term.isomorphic, hrun]
  rfl

end Renaming

end ClauseForm
