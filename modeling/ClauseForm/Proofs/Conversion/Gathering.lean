import ClauseForm.Proofs.Clause.Tautology
import ClauseForm.Proofs.Conversion.Flattening
import ClauseForm.Proofs.Conversion.Rewriting
import ClauseForm.Proofs.Negation.Meaning

/-!
# Gathering clauses

The clauses of a conjunction of disjunctions of literals say what the conjunction
says (`ClauseForm.ConvertM.ensures_gatherClauses`), with simplification or without. A
clause that is left out is true in every interpretation
(`ClauseForm.Term.SeenTrue.exists_holds`), and one that loses its false constants keeps
its meaning (`ClauseForm.Term.exists_filter_isFalsity`).
-/

universe u

namespace ClauseForm

namespace Term

open Interpretation

variable {D : Type u} {ls : List Term}

/-! ### What is seen in a clause -/

/-- **What is seen to be true is true in every interpretation.** -/
theorem SeenTrue.exists_holds (h : SeenTrue ls) (I : Interpretation D) (v : Var → D) :
    ∃ l ∈ ls, I.Holds l v := by
  rcases h with htrue | hfalse | ⟨t, ht, hneg⟩
  · exact ⟨_, htrue, rfl⟩
  · exact ⟨_, hfalse, (I.holds_not v _).2 Bool.false_ne_true⟩
  · by_cases hv : I.Holds t v
    · exact ⟨t, ht, hv⟩
    · exact ⟨_, hneg, (I.holds_not v t).2 hv⟩

/-- Neither `false` nor `~true` is true. -/
theorem not_holds_of_isFalsity {l : Term} (h : l.isFalsity = true) (I : Interpretation D)
    (v : Var → D) : ¬I.Holds l v := by
  rw [isFalsity, Bool.or_eq_true, beq_iff_eq, beq_iff_eq] at h
  rcases h with rfl | rfl
  · exact Bool.false_ne_true
  · exact fun hv => (I.holds_not v _).1 hv rfl

/-- **A clause without its false constants says the same.** -/
theorem exists_filter_isFalsity (ls : List Term) (I : Interpretation D) (v : Var → D) :
    (∃ l ∈ ls.filter (!·.isFalsity), I.Holds l v) ↔ ∃ l ∈ ls, I.Holds l v := by
  constructor
  · rintro ⟨l, hl, hv⟩
    exact ⟨l, List.mem_of_mem_filter hl, hv⟩
  · rintro ⟨l, hl, hv⟩
    refine ⟨l, List.mem_filter.2 ⟨hl, ?_⟩, hv⟩
    rw [Bool.not_eq_true', Bool.eq_false_iff]
    exact fun hfalse => not_holds_of_isFalsity hfalse I v hv

/-- Nothing is added when false constants are dropped. -/
theorem mem_of_dropFalse {ls kept : List Term} (h : dropFalse ls = .ok kept) :
    ∀ l ∈ kept, l ∈ ls := by
  induction ls generalizing kept with
  | nil =>
    cases h
    simp
  | cons l ls ih =>
    rw [dropFalse] at h
    cases hvalue : l.literalValue with
    | error fault =>
      rw [hvalue] at h
      cases h
    | ok value =>
      cases hrest : dropFalse ls with
      | error fault =>
        rw [hvalue, hrest] at h
        cases h
      | ok rest =>
        have hkept : (if value = some false then rest else l :: rest) = kept := by
          rw [hvalue, hrest] at h
          exact Except.ok.inj h
        intro a ha
        rw [← hkept] at ha
        split at ha
        · exact List.mem_cons_of_mem l (ih hrest a ha)
        · rcases List.mem_cons.1 ha with rfl | ha
          · exact List.mem_cons_self
          · exact List.mem_cons_of_mem l (ih hrest a ha)

end Term

theorem Clause.mem_of_withoutFalse {c d : Clause} (h : c.withoutFalse = .ok d) :
    ∀ l ∈ d.literals, l ∈ c.literals := by
  rw [Clause.withoutFalse] at h
  cases hkept : Term.dropFalse c.literals with
  | error fault =>
    rw [hkept] at h
    cases h
  | ok kept =>
    rw [hkept] at h
    cases h
    exact Term.mem_of_dropFalse hkept

namespace Conversion

/-- From one state to another, clauses were gathered that say what certain formulas say together,
and no symbol was allotted. -/
structure Gathers (D : Type u) (ts : List Term) (s s' : Conversion) : Prop where
  grows : s.Grows s'
  ready : s'.Ready
  vocabulary : s'.vocabulary = s.vocabulary
  satisfies : ∀ I : Interpretation D,
    I.Satisfies s'.clauses ↔ I.Satisfies s.clauses ∧ ∀ t ∈ ts, I.Models t

/-- Gathering the clauses of one formula asserts it. -/
theorem Gathers.asserts {D : Type u} {ts : List Term} {t : Term} {s s' : Conversion}
    (h : Gathers D ts s s') (ht : ∀ I : Interpretation D, (∀ a ∈ ts, I.Models a) ↔ I.Models t) :
    Asserts D t s s' :=
  ⟨h.grows, h.ready, fun I hI => (ht I).1 ((h.satisfies I).1 hI).2,
    fun I hI hm => ⟨I, .refl I _, (h.satisfies I).2 ⟨hI, (ht I).2 hm⟩⟩⟩

end Conversion

namespace ConvertM

open Conversion Interpretation Term

variable {D : Type u} {s : Conversion} {t : Term}

/-- Adding a clause that says what a formula says. -/
theorem ensures_modify {c : Clause} (hs : s.Ready) (hw : ∀ l ∈ c.literals, l.Within s.vocabulary)
    (hc : ∀ (I : Interpretation D) v, (∃ l ∈ c.literals, I.Holds l v) ↔ I.Holds t v) :
    Ensures (modify fun state : Conversion => { state with clauses := state.clauses ++ [c] }) s
      fun _ s' => Gathers D [t] s s' := by
  refine ⟨(), _, rfl, ⟨⟨rfl, rfl, Nat.le_refl _, Nat.le_refl _, List.prefix_append _ _⟩,
    ⟨hs.journal, ?_⟩, rfl, fun I => ?_⟩⟩
  · intro d hd
    rcases List.mem_append.1 hd with hd | hd
    · exact hs.within d hd
    · obtain rfl := List.mem_singleton.1 hd
      exact hw
  · rw [Satisfies, List.forall_mem_append, List.forall_mem_singleton, List.forall_mem_singleton]
    exact and_congr_right fun _ => forall_congr' (hc I)

/-- **One clause is gathered**, left out if it is seen to be true. -/
theorem ensures_gatherClause {c : Clause} (hs : s.Ready)
    (hw : ∀ l ∈ c.literals, l.Within s.vocabulary) (hl : ∀ l ∈ c.literals, l.isLiteral = true)
    (hc : ∀ (I : Interpretation D) v, (∃ l ∈ c.literals, I.Holds l v) ↔ I.Holds t v) :
    Ensures (gatherClause c) s fun _ s' => Gathers D [t] s s' := by
  unfold gatherClause
  refine Ensures.bind_get ?_
  split
  · have hwide : ∀ l ∈ c.literals, l.isWideLiteral = true := fun l h =>
      isWideLiteral_of_isLiteral (hl l h)
    refine Ensures.bind_ofExcept (Clause.isTautology_eq hwide) ?_
    split
    · rename_i hseen
      refine .pure ⟨.refl _, hs, rfl, fun I => (and_iff_left ?_).symm⟩
      rw [List.forall_mem_singleton]
      exact fun v => (hc I v).1 ((of_decide_eq_true hseen).exists_holds I v)
    · refine Ensures.bind_ofExcept (Clause.withoutFalse_eq hwide) ?_
      exact ensures_modify hs (fun l hl => hw l (List.mem_of_mem_filter hl)) fun I v =>
        (exists_filter_isFalsity _ I v).trans (hc I v)
  · exact ensures_modify hs hw hc

/-- One clause after the other. -/
theorem ensures_gatherEach {p : Term → Prop} {ds : List Term} (hd : ∀ d ∈ ds, Disjunctive p d)
    (hs : s.Ready) (hw : ∀ d ∈ ds, d.Within s.vocabulary) :
    Ensures (ds.forM fun d => gatherClause ⟨d.flatten .or⟩) s fun _ s' => Gathers D ds s s' := by
  induction ds generalizing s with
  | nil => exact .pure ⟨.refl _, hs, rfl, by simp⟩
  | cons d ds ih =>
    rw [List.forall_mem_cons] at hd hw
    have hleaf := hd.1.isLiteral_of_mem_leaves
    refine (ensures_gatherClause (c := ⟨d.flatten .or⟩) (t := d) (D := D) hs ?_ ?_ ?_).bind ?_
    · rw [flatten_eq_leaves]
      exact fun l hl => hw.1.of_mem_parts (mem_parts_of_mem_leaves hl)
    · rw [flatten_eq_leaves]
      exact fun l hl => (hleaf l hl).1
    · rw [flatten_eq_leaves]
      exact fun I v => I.exists_leaves_or v d
    · intro _ s₁ hfirst
      have hw' : ∀ a ∈ ds, a.Within s₁.vocabulary := hfirst.vocabulary ▸ hw.2
      refine (ih hd.2 hfirst.ready hw').mono fun _ s₂ hrest => ?_
      refine ⟨hfirst.grows.trans hrest.grows, hrest.ready,
        hrest.vocabulary.trans hfirst.vocabulary, fun I => ?_⟩
      rw [hrest.satisfies, hfirst.satisfies, List.forall_mem_singleton, List.forall_mem_cons,
        and_assoc]

/-- **The clauses of a conjunction of disjunctions of literals say what it says.** -/
theorem ensures_gatherClauses {p : Term → Prop} (hr : Raised p t) (hs : s.Ready)
    (hw : t.Within s.vocabulary) :
    Ensures (gatherClauses t) s fun _ s' => Asserts D t s s' := by
  unfold gatherClauses
  rw [flatten_eq_leaves]
  have hw' : ∀ d ∈ t.leaves .and, d.Within s.vocabulary := fun d hd =>
    hw.of_mem_parts (mem_parts_of_mem_leaves hd)
  refine (ensures_gatherEach (D := D) hr.disjunctive_of_mem_leaves hs hw').mono fun _ s' h =>
    h.asserts fun I => ?_
  constructor
  · exact fun h v => (I.forall_leaves_and v t).1 fun d hd => h d hd v
  · exact fun h d hd v => (I.forall_leaves_and v t).2 (h v) d hd

end ConvertM

end ClauseForm
