import Mathlib.Logic.Relation
import ClauseForm.Proofs.Conversion.Programs

/-!
# What a conversion does step by step

All that a conversion ever does to its state is to allot a symbol, to make an entry in the
journal, or to gather a clause (`ClauseForm.Conversion.Step`). This holds of every term,
well-formed or not, and whether or not the conversion ends in a fault
(`ClauseForm.ConvertM.bySteps_add`), since it is read off the programs alone; and so does what none
of these steps changes: the choices, whether a journal is kept, and the names of the symbols that
were there (`ClauseForm.Conversion.Steps.vocabulary`).
-/

namespace ClauseForm

namespace Conversion

/-- One of the things that a conversion does to its state. -/
inductive Step : Conversion → Conversion → Prop
  /-- A fresh variable is allotted. -/
  | freshLike (s : Conversion) (x : Var) :
    Step s { s with vocabulary := (s.vocabulary.freshLike x).2 }
  /-- A Skolem function is allotted, under the next name for Skolem functions. -/
  | newSkolem (s : Conversion) :
    Step s { s with
      vocabulary := (s.vocabulary.newFun s!"{s.config.skolemStem}{s.skolems}" .skolem).2
      skolems := s.skolems + 1 }
  /-- A definitional symbol is allotted, under the next name for definitional symbols. -/
  | newDefinition (s : Conversion) :
    Step s { s with
      vocabulary :=
        (s.vocabulary.newFun s!"{s.config.definitionStem}{s.definitions}" .definition).2
      definitions := s.definitions + 1 }
  /-- An entry is made in the journal, if one is kept. -/
  | enter (s : Conversion) (entry : Entry) :
    Step s { s with journal := s.journal.map (· ++ [entry]) }
  /-- A clause is gathered. -/
  | gather (s : Conversion) (c : Clause) : Step s { s with clauses := s.clauses ++ [c] }

/-- The second state came from the first one step by step. -/
abbrev Steps : Conversion → Conversion → Prop :=
  Relation.ReflTransGen Step

namespace Steps

variable {s s' : Conversion}

/-- The choices stay as they were made. -/
theorem config (h : Steps s s') : s'.config = s.config := by
  induction h with
  | refl => rfl
  | tail _ hstep ih => cases hstep <;> exact ih

/-- A journal that is not kept is not begun on the way. -/
theorem journal (h : Steps s s') (hs : s.journal = none) : s'.journal = none := by
  induction h with
  | refl => exact hs
  | tail _ hstep ih =>
    cases hstep with
    | enter entry => exact congrArg (Option.map (· ++ [entry])) ih
    | _ => exact ih

/-- Symbols that were allotted keep their numbers and their names. -/
theorem vocabulary (h : Steps s s') : s.vocabulary.Extends s'.vocabulary := by
  induction h with
  | refl => exact .refl _
  | tail _ hstep ih =>
    cases hstep with
    | freshLike x => exact ih.trans (Vocabulary.extends_newVar ..)
    | newSkolem => exact ih.trans (Vocabulary.extends_newFun _ _ .skolem)
    | newDefinition => exact ih.trans (Vocabulary.extends_newFun _ _ .definition)
    | _ => exact ih

/-- Clauses that were gathered stay. -/
theorem clauses (h : Steps s s') : s.clauses <+: s'.clauses := by
  induction h with
  | refl => exact List.prefix_refl _
  | tail _ hstep ih =>
    cases hstep with
    | gather c => exact ih.trans (List.prefix_append _ _)
    | _ => exact ih

/-- The counters never go back. -/
theorem counters_le (h : Steps s s') :
    s.skolems ≤ s'.skolems ∧ s.definitions ≤ s'.definitions := by
  induction h with
  | refl => exact ⟨Nat.le_refl _, Nat.le_refl _⟩
  | tail _ hstep ih =>
    cases hstep with
    | newSkolem => exact ⟨Nat.le_succ_of_le ih.1, ih.2⟩
    | newDefinition => exact ⟨ih.1, Nat.le_succ_of_le ih.2⟩
    | _ => exact ih

end Steps

/-- The state that a run leaves, be it with an answer or with a fault. -/
def left {α : Type} : EStateM.Result Fault Conversion α → Conversion
  | .ok _ s => s
  | .error _ s => s

end Conversion

namespace ConvertM

open Conversion Term

variable {α β : Type}

/-- Whatever state the program leaves, it got there step by step. -/
def BySteps (x : ConvertM α) : Prop :=
  ∀ s, Steps s (left (x s))

namespace BySteps

/-- In particular, where it comes to an answer. -/
theorem steps {x : ConvertM α} {s s' : Conversion} {a : α} (h : BySteps x)
    (hrun : x s = .ok a s') : Steps s s' := by
  have hsteps := h s
  rwa [hrun] at hsteps

theorem bind {x : ConvertM α} {f : α → ConvertM β} (h : BySteps x) (hf : ∀ a, BySteps (f a)) :
    BySteps (x >>= f) := by
  intro s
  have hx := h s
  change Steps s (left (EStateM.bind x f s))
  rw [EStateM.bind]
  cases hrun : x s with
  | ok a s' =>
    rw [hrun] at hx
    exact hx.trans (hf a s')
  | error fault s' =>
    rw [hrun] at hx
    exact hx

/-- Looking at the state. -/
theorem bind_get {f : Conversion → ConvertM β} (h : ∀ s, BySteps (f s)) : BySteps (get >>= f) :=
  fun s => h s s

theorem ofExcept (x : Except Fault α) : BySteps (ConvertM.ofExcept x) := by
  intro s
  cases x <;> exact .refl

end BySteps

/-! ### The primitive programs -/

theorem bySteps_report (e : Event) : BySteps (report e) := by
  intro s
  rw [report_eq]
  split
  · exact .refl
  · rename_i entries hjournal
    split
    · rename_i entry _
      have hstep := Step.enter s entry
      rw [hjournal] at hstep
      exact .single hstep
    · exact .refl

theorem bySteps_gatherClause (c : Clause) : BySteps (gatherClause c) := by
  have hmodify : ∀ d : Clause,
      BySteps (modify fun s : Conversion => { s with clauses := s.clauses ++ [d] }) :=
    fun d s => .single (.gather s d)
  unfold gatherClause
  refine .bind_get fun s => ?_
  split
  · refine (BySteps.ofExcept _).bind fun b => ?_
    split
    · exact fun s => .refl
    · exact (BySteps.ofExcept _).bind hmodify
  · exact hmodify c

/-- **What is composed of primitive programs goes step by step.** -/
theorem Composed.bySteps {x : ConvertM α} (h : Composed x) : BySteps x := by
  induction h with
  | ofExcept x => exact .ofExcept x
  | report e => exact bySteps_report e
  | freshLike x => exact fun s => .single (.freshLike s x)
  | newSkolem => exact fun s => .single (.newSkolem s)
  | newDefinition => exact fun s => .single (.newDefinition s)
  | gatherClause c => exact bySteps_gatherClause c
  | bind _ _ ih ihf => exact ih.bind ihf

/-! ### Adding formulas -/

/-- **Adding a formula goes step by step.** -/
theorem bySteps_add (t : Term) : BySteps (add t) := by
  have hrest : ∀ (before : Nat) (t : Term), BySteps (addClosed before t) := fun before t =>
    (bySteps_report _).bind fun _ => (composed_convertWithin _ t).bySteps.bind fun _ =>
      .bind_get fun s => bySteps_report _
  unfold add
  refine .bind_get fun s => .bind_get fun s' => ?_
  split
  · exact (BySteps.ofExcept _).bind fun t' => hrest _ _
  · exact (BySteps.ofExcept (.ok t)).bind fun t' => hrest _ _

/-- Where no journal is kept, adding a formula is converting the closure of what it is prepared to,
and that alone. -/
theorem add_eq_ok {t u : Term} {s s' : Conversion} (hprepared : prepared s.config t = .ok u)
    (hs : s.journal = none) :
    add t s = .ok () s' ↔ convertWithin nestingLimit u.universalClosure s = .ok () s' := by
  have hquiet : ∀ {s₁}, convertWithin nestingLimit u.universalClosure s = .ok () s₁ →
      s₁.journal = none := fun h => ((composed_convertWithin _ _).bySteps.steps h).journal hs
  rw [add_eq_addClosed hprepared, addClosed_of_quiet hs]
  constructor
  · intro h
    obtain ⟨_, s₁, hrun, hrest⟩ := bind_eq_ok.1 h
    obtain ⟨_, _, hget, hreport⟩ := bind_eq_ok.1 hrest
    cases hget
    rw [report_of_quiet (hquiet hrun)] at hreport
    cases hreport
    exact hrun
  · intro h
    refine bind_eq_ok.2 ⟨(), s', h, bind_eq_ok.2 ⟨s', s', rfl, ?_⟩⟩
    exact report_of_quiet (hquiet h) _

theorem bySteps_addAll (ts : List Term) : BySteps (addAll ts) := by
  induction ts with
  | nil => exact fun s => .refl
  | cons t ts ih =>
    exact (bySteps_add t).bind fun _ => .bind_get fun s => ih.bind fun counts => fun s => .refl

end ConvertM

end ClauseForm
