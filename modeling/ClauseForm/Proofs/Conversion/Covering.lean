import ClauseForm.Proofs.Conversion.Journal
import ClauseForm.Proofs.Conversion.Ledger

/-!
# Steps that a ledger covers

Once the quantifiers are gone, all that the steps of a conversion introduce are names for
formulas. A step is *covered* (`ClauseForm.Ledger.Covers`) if, wherever it comes to an end,
the names can be entered in the ledger one after the other (`ClauseForm.Ledger.Posts`): the
clauses gathered on the way are accounted for by then, and the names are those that the
journal tells of, for the same formulas and in the same order.
-/

namespace ClauseForm

namespace Ledger

open Conversion ConvertM Term

variable {α β : Type} {L : Ledger} {s s' s'' : Conversion} {gs hs : List Term}

/-! ### Keeping the ledger -/

/-- The ledger with the names of several formulas entered. -/
def define (L : Ledger) (gs : List Term) : Ledger :=
  { L with mints := L.mints ++ gs.map .definition }

@[simp]
theorem define_nil (L : Ledger) : L.define [] = L := by
  simp [define]

theorem define_define (L : Ledger) (gs hs : List Term) :
    (L.define gs).define hs = L.define (gs ++ hs) := by
  simp [define, List.append_assoc]

theorem continues_define (L : Ledger) (gs : List Term) : L.Continues (L.define gs) :=
  ⟨rfl, rfl, Nat.le_refl _, rfl, List.prefix_append _ _⟩

/-- The numbers of the next symbols are those that the state has. -/
structure Fits (L : Ledger) (s : Conversion) : Prop where
  vars : s.vocabulary.vars.size = L.nextVar
  funs : s.vocabulary.funs.size = L.firstFun + L.mints.length

/-- From one state to another, names were given to formulas, and everything else is as the ledger
says then. -/
structure Posts (L : Ledger) (gs : List Term) (s s' : Conversion) : Prop where
  fits : (L.define gs).Fits s'
  vocabulary : s.vocabulary.Extends s'.vocabulary
  clauses : ∃ cs, s'.clauses = s.clauses ++ cs ∧
    ∀ c ∈ cs, ∀ l ∈ c.literals, (L.define gs).Accounts l
  journal : s.Enters s' (namesFrom s.vocabulary.funs.size gs)

/-- Nothing is entered where nothing was done but to the journal, and no name is in it. -/
theorem Posts.of_eq (hs : L.Fits s) (hv : s'.vocabulary = s.vocabulary)
    (hc : s'.clauses = s.clauses) (hj : s.Enters s' []) : L.Posts [] s s' := by
  refine ⟨?_, hv ▸ .refl _, ⟨[], by simpa using hc, by simp⟩, hj⟩
  rw [define_nil]
  exact ⟨hv ▸ hs.vars, hv ▸ hs.funs⟩

theorem Posts.refl (hs : L.Fits s) : L.Posts [] s s :=
  .of_eq hs rfl rfl (.of_eq rfl)

theorem Posts.trans (hfits : L.Fits s) (h : L.Posts gs s s') (h' : (L.define gs).Posts hs s' s'') :
    L.Posts (gs ++ hs) s s'' := by
  obtain ⟨cs, hcs, hc⟩ := h.clauses
  obtain ⟨ds, hds, hd⟩ := h'.clauses
  have hcont : (L.define gs).Continues (L.define (gs ++ hs)) :=
    define_define L gs hs ▸ continues_define _ hs
  refine ⟨define_define L gs hs ▸ h'.fits, h.vocabulary.trans h'.vocabulary,
    ⟨cs ++ ds, by rw [hds, hcs, List.append_assoc], fun c hmem l hl => ?_⟩, ?_⟩
  · rcases List.mem_append.1 hmem with hmem | hmem
    · exact hcont.accounts (hc c hmem l hl)
    · exact define_define L gs hs ▸ hd c hmem l hl
  · have hsize : s'.vocabulary.funs.size = s.vocabulary.funs.size + gs.length := by
      rw [h.fits.funs, hfits.funs]
      simp [define, Nat.add_assoc]
    rw [namesFrom_append, ← hsize]
    exact h.journal.trans h'.journal

/-! ### Steps that the ledger covers -/

/-- Wherever the step comes to an end, all that was entered are names, and the answer is as `post`
says by the ledger that is there in the end. -/
def Covers (L : Ledger) (x : ConvertM α) (post : Ledger → α → Prop) : Prop :=
  ∀ s a s', L.Fits s → x s = .ok a s' → ∃ gs, L.Posts gs s s' ∧ post (L.define gs) a

namespace Covers

variable {P : Ledger → α → Prop} {Q : Ledger → β → Prop}

theorem pure {a : α} (h : P L a) : L.Covers (Pure.pure a) P := by
  intro s b s' hfits hrun
  obtain ⟨rfl, rfl⟩ := pure_eq_ok.1 hrun
  exact ⟨[], .refl hfits, by rwa [define_nil]⟩

theorem bind {x : ConvertM α} {f : α → ConvertM β} (h : L.Covers x P)
    (hf : ∀ a L', L.Continues L' → P L' a → L'.Covers (f a) Q) : L.Covers (x >>= f) Q := by
  intro s b s'' hfits hrun
  obtain ⟨a, s', hx, hfa⟩ := bind_eq_ok.1 hrun
  obtain ⟨gs, hposts, ha⟩ := h s a s' hfits hx
  obtain ⟨hs, hposts', hb⟩ := hf a _ (continues_define L gs) ha s' b s'' hposts.fits hfa
  exact ⟨gs ++ hs, hposts.trans hfits hposts', define_define L gs hs ▸ hb⟩

/-- Looking at the state. -/
theorem bind_get {f : Conversion → ConvertM β} (h : ∀ s, L.Covers (f s) Q) :
    L.Covers (get >>= f) Q :=
  fun s b s' hfits hrun => h s s b s' hfits hrun

/-- Answers that need no state. -/
theorem ofExcept {x : Except Fault α} (h : ∀ a, x = .ok a → P L a) :
    L.Covers (ConvertM.ofExcept x) P := by
  intro s a s' hfits hrun
  obtain ⟨hx, rfl⟩ := ofExcept_eq_ok.1 hrun
  exact ⟨[], .refl hfits, by rw [define_nil]; exact h a hx⟩

/-- Events that introduce no name. -/
theorem report {e : Event} (he : e.naming? = none) :
    L.Covers (ConvertM.report e) fun _ _ => True := by
  intro s a s' hfits hrun
  have hnone := enters_of_report hrun
  have hsame := eq_of_report hrun
  rw [he] at hnone
  exact ⟨[], .of_eq hfits (by rw [hsame]) (by rw [hsame]) hnone, trivial⟩

/-- One step for each member of a list. -/
theorem mapM {f : α → ConvertM β} {as : List α} (hQ : ∀ {L L' b}, L.Continues L' → Q L b → Q L' b)
    (h : ∀ a ∈ as, ∀ L', L.Continues L' → L'.Covers (f a) Q) :
    L.Covers (as.mapM f) fun L' bs => bs.length = as.length ∧ ∀ b ∈ bs, Q L' b := by
  induction as generalizing L with
  | nil => exact pure ⟨rfl, by simp⟩
  | cons a as ih =>
    rw [List.forall_mem_cons] at h
    rw [List.mapM_cons]
    refine (h.1 L (.refl L)).bind fun b L₁ h₁ hb => ?_
    refine (ih fun a ha L₂ h₂ => h.2 a ha L₂ (h₁.trans h₂)).bind ?_
    rintro bs L₂ h₂ ⟨hlength, hbs⟩
    exact pure ⟨congrArg (· + 1) hlength, List.forall_mem_cons.2 ⟨hQ h₂ hb, hbs⟩⟩

end Covers

end Ledger

end ClauseForm
