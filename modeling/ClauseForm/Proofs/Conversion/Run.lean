import ClauseForm.Conversion.Convert
import ClauseForm.Proofs.Syntax.Parts

/-!
# Runs of a conversion

A step of a conversion is a program over its state. What is proved about such a
program is that it comes to an end without a fault, and that its answer and the
state it leaves have some property (`ClauseForm.ConvertM.Ensures`); the rules for
this follow the way programs are put together.

Whatever a conversion does, it keeps its choices, adds symbols to those allotted
and clauses to those gathered (`ClauseForm.Conversion.Grows`). The function symbols
that it minted on the way are told by their numbers and their origin
(`ClauseForm.Vocabulary.Minted`), since a formula that is made of symbols allotted
before (`ClauseForm.Term.Within`) mentions none of them.
-/

namespace ClauseForm

/-! ### Symbols allotted so far -/

/-- The function symbols of the term were all allotted. -/
def Term.Within (t : Term) (voc : Vocabulary) : Prop :=
  ∀ f ∈ t.funs, f.id < voc.funs.size

instance (t : Term) (voc : Vocabulary) : Decidable (t.Within voc) :=
  inferInstanceAs (Decidable (∀ f ∈ t.funs, f.id < voc.funs.size))

/-- The function symbol was introduced between two stages of a vocabulary. -/
def Vocabulary.Minted (before after : Vocabulary) (f : FunSym) : Prop :=
  before.funs.size ≤ f.id ∧ f.id < after.funs.size ∧ f.origin.isGenerated = true

/-- Symbols allotted before were not minted since. -/
theorem Vocabulary.not_minted_of_lt {before after : Vocabulary} {f : FunSym}
    (h : f.id < before.funs.size) : ¬before.Minted after f :=
  fun hm => absurd hm.1 (Nat.not_le.2 h)

/-- A term of symbols allotted before mentions nothing that was minted since. -/
theorem Term.Within.not_minted {t : Term} {before after : Vocabulary} (h : t.Within before) :
    ∀ f ∈ t.funs, ¬before.Minted after f :=
  fun f hf => Vocabulary.not_minted_of_lt (h f hf)

theorem Term.Within.mono {t : Term} {before after : Vocabulary} (h : t.Within before)
    (hle : before.funs.size ≤ after.funs.size) : t.Within after :=
  fun f hf => Nat.lt_of_lt_of_le (h f hf) hle

/-- Whether an operator node is made of allotted symbols is a matter of its arguments. -/
theorem Term.within_node {op : Op} {args : List Term} {voc : Vocabulary} :
    (Term.node op args).Within voc ↔ ∀ a ∈ args, a.Within voc := by
  simp only [Term.Within, Term.funs_node, List.forall_mem_flatMap]

/-- The parts of a term are made of its symbols. -/
theorem Term.Within.of_mem_parts {s t : Term} {voc : Vocabulary} (h : t.Within voc)
    (hs : s ∈ t.parts) : s.Within voc :=
  fun f hf => h f (Term.mem_funs_of_mem_parts hf hs)

namespace Conversion

/-! ### How a state grows -/

/-- From one state to a later one, symbols were allotted and clauses gathered, and the choices
stayed as they were. -/
structure Grows (s s' : Conversion) : Prop where
  config : s'.config = s.config
  journal : s'.journal = s.journal
  vars : s.vocabulary.vars.size ≤ s'.vocabulary.vars.size
  funs : s.vocabulary.funs.size ≤ s'.vocabulary.funs.size
  clauses : s.clauses <+: s'.clauses

namespace Grows

theorem refl (s : Conversion) : s.Grows s :=
  ⟨rfl, rfl, Nat.le_refl _, Nat.le_refl _, List.prefix_refl _⟩

theorem trans {s s' s'' : Conversion} (h : s.Grows s') (h' : s'.Grows s'') : s.Grows s'' :=
  ⟨h'.config.trans h.config, h'.journal.trans h.journal, Nat.le_trans h.vars h'.vars,
    Nat.le_trans h.funs h'.funs, h.clauses.trans h'.clauses⟩

end Grows

/-- No journal is kept, and the clauses gathered so far are made of symbols allotted so far. -/
structure Ready (s : Conversion) : Prop where
  journal : s.journal = none
  within : ∀ c ∈ s.clauses, ∀ l ∈ c.literals, l.Within s.vocabulary

/-- A conversion about to begin is ready. -/
theorem ready_start (config : Config) (voc : Vocabulary) : (start config voc).Ready :=
  ⟨rfl, by simp [start]⟩

/-- Gathering no clauses keeps a state ready. -/
theorem Ready.of_grows {s s' : Conversion} (h : s.Ready) (hg : s.Grows s')
    (hc : s'.clauses = s.clauses) : s'.Ready :=
  ⟨hg.journal.trans h.journal, fun c hcs l hl => (h.within c (hc ▸ hcs) l hl).mono hg.funs⟩

end Conversion

namespace ConvertM

open Conversion

variable {α β : Type} {s : Conversion}

/-! ### Programs that come to an end -/

/-- From a state, the step comes to an end without a fault, with an answer and a state that `post`
holds of. -/
def Ensures (x : ConvertM α) (s : Conversion) (post : α → Conversion → Prop) : Prop :=
  ∃ a s', x s = .ok a s' ∧ post a s'

namespace Ensures

variable {P Q : α → Conversion → Prop}

theorem pure {a : α} (h : P a s) : Ensures (Pure.pure a) s P :=
  ⟨a, s, rfl, h⟩

theorem bind {x : ConvertM α} {f : α → ConvertM β} {R : β → Conversion → Prop}
    (hx : Ensures x s P) (hf : ∀ a s', P a s' → Ensures (f a) s' R) : Ensures (x >>= f) s R := by
  obtain ⟨a, s', hrun, ha⟩ := hx
  obtain ⟨b, s'', hrun', hb⟩ := hf a s' ha
  refine ⟨b, s'', ?_, hb⟩
  change EStateM.bind x f s = _
  rw [EStateM.bind, hrun]
  exact hrun'

theorem mono {x : ConvertM α} (hx : Ensures x s P) (h : ∀ a s', P a s' → Q a s') :
    Ensures x s Q := by
  obtain ⟨a, s', hrun, ha⟩ := hx
  exact ⟨a, s', hrun, h a s' ha⟩

/-- A step has one outcome, which has all the properties that were proved of it. -/
theorem and {x : ConvertM α} (hP : Ensures x s P) (hQ : Ensures x s Q) :
    Ensures x s fun a s' => P a s' ∧ Q a s' := by
  obtain ⟨a, s', hrun, ha⟩ := hP
  obtain ⟨b, s'', hrun', hb⟩ := hQ
  obtain ⟨rfl, rfl⟩ : a = b ∧ s' = s'' := by simpa [hrun] using hrun'
  exact ⟨a, s', hrun, ha, hb⟩

/-- An answer that needs no state. -/
theorem ofExcept {x : Except Fault α} {a : α} (hx : x = .ok a) (h : P a s) :
    Ensures (ConvertM.ofExcept x) s P := by
  subst hx
  exact pure h

/-! Steps that leave the state alone, and what comes after them -/

variable {R : β → Conversion → Prop}

/-- After an answer that needs no state. -/
theorem bind_ofExcept {x : Except Fault α} {a : α} {f : α → ConvertM β} (hx : x = .ok a)
    (h : Ensures (f a) s R) : Ensures (ConvertM.ofExcept x >>= f) s R := by
  subst hx
  exact h

/-- After a look at the state. -/
theorem bind_get {f : Conversion → ConvertM β} (h : Ensures (f s) s R) :
    Ensures (MonadState.get >>= f) s R :=
  h

/-- An event leaves no trace where no journal is kept. -/
theorem report (e : Event) (hs : s.journal = none) :
    Ensures (ConvertM.report e) s fun _ s' => s' = s := by
  unfold ConvertM.report
  refine bind_get ?_
  rw [hs]
  exact pure rfl

/-- After an event. -/
theorem bind_report {f : Unit → ConvertM β} (e : Event) (hs : s.journal = none)
    (h : Ensures (f ()) s R) : Ensures (ConvertM.report e >>= f) s R := by
  refine (report e hs).bind ?_
  rintro ⟨⟩ _ rfl
  exact h

end Ensures

end ConvertM

end ClauseForm
