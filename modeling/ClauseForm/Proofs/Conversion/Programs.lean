import ClauseForm.Proofs.Conversion.Covered

/-!
# What the programs of a conversion are composed of

However a conversion is put together, its stages are programs composed of a few primitive ones
(`ClauseForm.ConvertM.Composed`): computations that need no state, events, the introduction of a
symbol, and the gathering of a clause. In particular, no stage looks at what is gathered, nor at
the choices. So it is for every term, well-formed or not, and to whatever depth definitions are
nested (`ClauseForm.ConvertM.composed_convertWithin`). Whatever holds of the primitive programs and
is kept when one program is followed by another then holds of all stages, by one induction.
-/

namespace ClauseForm

namespace ConvertM

open Conversion Term

/-- The program does nothing but run primitive ones one after the other. -/
inductive Composed : {α : Type} → ConvertM α → Prop
  /-- A computation that needs no state. -/
  | ofExcept {α : Type} (x : Except Fault α) : Composed (ConvertM.ofExcept x)
  /-- An event. -/
  | report (e : Event) : Composed (ConvertM.report e)
  /-- A fresh variable is allotted. -/
  | freshLike (x : Var) : Composed (ConvertM.freshLike x)
  /-- A Skolem function is introduced. -/
  | newSkolem : Composed ConvertM.newSkolem
  /-- A definitional symbol is introduced. -/
  | newDefinition : Composed ConvertM.newDefinition
  /-- A clause is gathered. -/
  | gatherClause (c : Clause) : Composed (ConvertM.gatherClause c)
  /-- One program after the other, by the answer of the first. -/
  | bind {α β : Type} {x : ConvertM α} {f : α → ConvertM β} :
    Composed x → (∀ a, Composed (f a)) → Composed (x >>= f)

namespace Composed

variable {α β : Type}

theorem pure (a : α) : Composed (Pure.pure a) :=
  .ofExcept (.ok a)

theorem throw (fault : Fault) : Composed (throw fault : ConvertM α) :=
  .ofExcept (.error fault)

/-- One program for each member of a list. -/
theorem mapM {f : α → ConvertM β} {as : List α} (h : ∀ a ∈ as, Composed (f a)) :
    Composed (as.mapM f) := by
  induction as with
  | nil => exact pure []
  | cons a as ih =>
    rw [List.forall_mem_cons] at h
    rw [List.mapM_cons]
    exact h.1.bind fun b => (ih h.2).bind fun bs => pure (b :: bs)

end Composed

/-! ### The stages of a conversion -/

theorem composed_bindFresh (xs : List Var) (σ : Scope) : Composed (σ.bindFresh xs) := by
  induction xs generalizing σ with
  | nil => exact .pure σ
  | cons x xs ih => exact (Composed.freshLike x).bind fun y => ih _

theorem composed_bindSkolem (args : List Term) (xs : List Var) (σ : Scope) :
    Composed (σ.bindSkolem args xs) := by
  induction xs generalizing σ with
  | nil => exact .pure σ
  | cons x xs ih => exact Composed.newSkolem.bind fun f => ih _

theorem composed_matrix (t : Term) (σ : Scope) : Composed (matrix t σ) := by
  induction t using Term.induct generalizing σ with
  | call f args ih | node op args ih =>
    rw [matrix, matrixAll_eq_mapM]
    exact (Composed.mapM fun a ha => ih a ha σ).bind fun _ => .pure _
  | quant q xs body ih =>
    cases q with
    | all => exact (composed_bindFresh xs σ).bind fun τ => ih τ
    | exist => exact (composed_bindSkolem _ xs σ).bind fun τ => ih τ
  | _ => exact .pure _

theorem composed_nameFor (t : Term) : Composed (nameFor t) :=
  Composed.newDefinition.bind fun _ => (Composed.report _).bind fun _ => .pure _

theorem composed_gatherClauses (t : Term) : Composed (gatherClauses t) := by
  unfold gatherClauses
  induction t.flatten .and with
  | nil => exact .pure ()
  | cons d ds ih => exact (Composed.gatherClause _).bind fun _ => ih

section Definitions

variable {define : Term → ConvertM Unit}

theorem composed_nameSide (h : ∀ t, Composed (define t)) (t : Term) :
    Composed (nameSide define t) := by
  unfold nameSide
  refine (Composed.ofExcept _).bind fun core => ?_
  split
  · exact (composed_nameFor t).bind fun atom => (h _).bind fun _ => .pure atom
  · exact .pure t

theorem composed_sideAt (args : List Term) (i : Nat) : Composed (sideAt args i) := by
  unfold sideAt
  split
  · exact .pure _
  · exact .throw _

theorem composed_expandIffs (h : ∀ t, Composed (define t)) (t : Term) :
    Composed (expandIffs define t) := by
  induction t using Term.induct with
  | node op args ih =>
    rw [expandIffs, expandIffsAll_eq_mapM]
    refine (Composed.mapM ih).bind fun as => ?_
    split
    · refine (composed_sideAt as 0).bind fun l => (composed_nameSide h l).bind fun l' => ?_
      refine (composed_sideAt as 1).bind fun r => (composed_nameSide h r).bind fun r' => ?_
      exact .ofExcept _
    · exact .pure _
  | _ => exact .pure _

theorem composed_nameConjunction (h : ∀ t, Composed (define t)) (t : Term) :
    Composed (nameConjunction define t) := by
  unfold nameConjunction
  split
  · exact (composed_nameFor t).bind fun atom => (h _).bind fun _ => .pure atom
  · exact .pure t

theorem composed_disjoin (h : ∀ t, Composed (define t)) (args : List Term) :
    Composed (disjoin define args) := by
  unfold disjoin
  split
  · split <;> exact .pure _
  · exact (Composed.mapM fun a _ => composed_nameConjunction h a).bind fun _ => .pure _

theorem composed_raiseAnds (h : ∀ t, Composed (define t)) (t : Term) :
    Composed (raiseAnds define t) := by
  induction t using Term.induct with
  | node op args ih =>
    cases op with
    | and =>
      rw [raiseAnds, raiseAndsAll_eq_mapM]
      exact (Composed.mapM ih).bind fun _ => .pure _
    | or =>
      rw [raiseAnds, raiseAndsAll_eq_mapM]
      exact (Composed.mapM ih).bind fun as => composed_disjoin h as
    | _ => exact .pure _
  | _ => exact .pure _

/-- **A pass is composed of primitive programs** if the definitions are. -/
theorem composed_convertBy (h : ∀ t, Composed (define t)) (t : Term) :
    Composed (convertBy define t) :=
  (Composed.ofExcept _).bind fun n => (Composed.report _).bind fun _ =>
    (composed_matrix n _).bind fun m => (composed_expandIffs h m).bind fun e =>
      (composed_raiseAnds h e).bind fun c => (Composed.report _).bind fun _ =>
        composed_gatherClauses c

end Definitions

/-- **A conversion is composed of primitive programs**, to whatever depth definitions are nested. -/
theorem composed_convertWithin (limit : Nat) (t : Term) : Composed (convertWithin limit t) := by
  induction limit generalizing t with
  | zero => exact .throw _
  | succ limit ih => exact composed_convertBy ih t

end ConvertM

end ClauseForm
