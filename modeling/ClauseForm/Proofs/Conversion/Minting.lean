import ClauseForm.Proofs.Conversion.Rewriting
import ClauseForm.Proofs.Negation.Shape

/-!
# Symbols that a conversion introduces

A step that introduces a function symbol leaves everything else about the state as
it was (`ClauseForm.Conversion.Mints`). What the symbol means can be chosen freely,
since no formula or clause mentions it so far
(`ClauseForm.Interpretation.withFn`, `ClauseForm.Interpretation.withRel`). The meaning
chosen for the name of a formula is what the formula says
(`ClauseForm.ConvertM.ensures_nameFor`).
-/

universe u

namespace ClauseForm

/-! ### A symbol over its arguments -/

namespace FunSym

variable (f : FunSym) (args : List Term)

@[simp]
theorem head?_appliedTo : (f.appliedTo args).head? = some f := by
  cases args <;> rfl

@[simp]
theorem parts_appliedTo :
    (f.appliedTo args).parts = f.appliedTo args :: args.flatMap Term.parts := by
  cases args with
  | nil => rfl
  | cons a args => exact Term.parts_call f (a :: args)

theorem isVar_appliedTo : (f.appliedTo args).isVar = false := by
  cases args <;> rfl

@[simp]
theorem funs_appliedTo : (f.appliedTo args).funs = f :: args.flatMap Term.funs := by
  cases args <;> simp [appliedTo]

@[simp]
theorem vars_appliedTo : (f.appliedTo args).vars = args.flatMap Term.vars := by
  cases args with
  | nil => rfl
  | cons a args => exact Term.vars_call f (a :: args)

theorem isAtom_appliedTo : (f.appliedTo args).isAtom = true := by
  cases args <;> rfl

theorem isObject_appliedTo :
    (f.appliedTo args).isObject = true ↔ ∀ a ∈ args, a.isObject = true := by
  cases args <;> simp [appliedTo, Term.isObject]

theorem isFormula_appliedTo :
    (f.appliedTo args).isFormula = true ↔ ∀ a ∈ args, a.isObject = true := by
  cases args <;> simp [appliedTo, Term.isFormula]

/-- A symbol over arguments is made of allotted symbols when it and its arguments are. -/
theorem within_appliedTo {voc : Vocabulary} :
    (f.appliedTo args).Within voc ↔ f.id < voc.funs.size ∧ ∀ a ∈ args, a.Within voc := by
  simp only [Term.Within, funs_appliedTo, List.forall_mem_cons, List.forall_mem_flatMap]

end FunSym

namespace Interpretation

variable {D : Type u} (I : Interpretation D) (f : FunSym) (v : Var → D)

@[simp]
theorem denote_appliedTo (args : List Term) :
    I.denote v (f.appliedTo args) = I.fn f (args.map (I.denote v)) := by
  cases args <;> simp [FunSym.appliedTo]

@[simp]
theorem holds_appliedTo (args : List Term) :
    I.Holds (f.appliedTo args) v ↔ I.rel f (args.map (I.denote v)) := by
  cases args <;> simp [FunSym.appliedTo]

/-- Variables stand for their values. -/
theorem map_denote_var (xs : List Var) : (xs.map .var).map (I.denote v) = xs.map v := by
  simp

/-! ### Choosing what a symbol means -/

/-- The interpretation with another function for a symbol. -/
def withFn (g : List D → D) : Interpretation D :=
  { I with fn := fun h => if h = f then g else I.fn h }

/-- The interpretation with another relation for a symbol. -/
def withRel (r : List D → Prop) : Interpretation D :=
  { I with rel := fun h => if h = f then r else I.rel h }

@[simp]
theorem fn_withFn (g : List D → D) : (I.withFn f g).fn f = g :=
  if_pos rfl

@[simp]
theorem rel_withRel (r : List D → Prop) : (I.withRel f r).rel f = r :=
  if_pos rfl

variable {I f} {p : FunSym → Prop}

theorem agreesOff_withFn (hf : p f) (g : List D → D) : I.AgreesOff p (I.withFn f g) :=
  ⟨fun h hh => if_neg fun he : h = f => hh (he ▸ hf), fun _ _ => rfl, rfl, rfl⟩

theorem agreesOff_withRel (hf : p f) (r : List D → Prop) : I.AgreesOff p (I.withRel f r) :=
  ⟨fun _ _ => rfl, fun h hh => if_neg fun he : h = f => hh (he ▸ hf), rfl, rfl⟩

end Interpretation

namespace Conversion

/-! ### Introducing a symbol -/

/-- From one state to the next, a function symbol was introduced, and nothing else happened. -/
structure Mints (f : FunSym) (s s' : Conversion) : Prop where
  grows : s.Grows s'
  clauses : s'.clauses = s.clauses
  vars : s'.vocabulary.vars = s.vocabulary.vars
  funs : s'.vocabulary.funs.size = s.vocabulary.funs.size + 1
  id : f.id = s.vocabulary.funs.size
  generated : f.origin.isGenerated = true

namespace Mints

variable {f : FunSym} {s s' : Conversion}

theorem ready (h : Mints f s s') (hs : s.Ready) : s'.Ready :=
  hs.of_grows h.grows h.clauses

theorem allotted (h : Mints f s s') : f.id < s'.vocabulary.funs.size := by
  rw [h.id, h.funs]
  exact Nat.lt_succ_self _

theorem minted (h : Mints f s s') : s.vocabulary.Minted s'.vocabulary f :=
  ⟨Nat.le_of_eq h.id.symm, h.allotted, h.generated⟩

end Mints

end Conversion

namespace ConvertM

open Conversion Interpretation

variable {s : Conversion}

theorem ensures_newDefinition (s : Conversion) : Ensures newDefinition s (Mints · s ·) :=
  ⟨_, _, rfl, ⟨⟨rfl, rfl, Nat.le_refl _, by simp, List.prefix_refl _⟩, rfl, rfl, by simp, rfl, rfl⟩⟩

theorem ensures_newSkolem (s : Conversion) : Ensures newSkolem s (Mints · s ·) :=
  ⟨_, _, rfl, ⟨⟨rfl, rfl, Nat.le_refl _, by simp, List.prefix_refl _⟩, rfl, rfl, by simp, rfl, rfl⟩⟩

/-- What is known of the name of a formula before anything is said about its meaning. -/
structure Names (D : Type u) (t atom : Term) (s s' : Conversion) : Prop where
  grows : s.Grows s'
  ready : s'.Ready
  clauses : s'.clauses = s.clauses
  within : atom.Within s'.vocabulary
  isAtom : atom.isAtom = true
  isFormula : atom.isFormula = true
  meaning : ∀ I : Interpretation D, ∃ J, I.AgreesOff (s.vocabulary.Minted s'.vocabulary) J ∧
    ∀ v, J.Holds atom v ↔ I.Holds t v

/-- **The name of a formula is a new atom over its free variables, and can be given the meaning of
the formula.** -/
theorem ensures_nameFor (D : Type u) (t : Term) (hs : s.Ready) :
    Ensures (nameFor t) s fun atom s' => Names D t atom s s' := by
  refine (ensures_newDefinition s).bind fun f s' hf => ?_
  refine Ensures.bind_report _ (hf.ready hs).journal ?_
  refine .pure ⟨hf.grows, hf.ready hs, hf.clauses, ?_, f.isAtom_appliedTo _, ?_, fun I => ?_⟩
  · rw [FunSym.within_appliedTo, List.forall_mem_map]
    exact ⟨hf.allotted, fun x _ => by simp [Term.Within, Term.funs, Term.head?]⟩
  · rw [FunSym.isFormula_appliedTo, List.forall_mem_map]
    exact fun x _ => rfl
  · -- the relation holds where some valuation with these values makes the formula true
    refine ⟨I.withRel f fun ds => ∃ v, t.freeVars.map v = ds ∧ I.Holds t v,
      agreesOff_withRel hf.minted _, fun v => ?_⟩
    rw [holds_appliedTo, rel_withRel, map_denote_var]
    constructor
    · rintro ⟨w, hw, ht⟩
      refine (holds_congr fun x hx => ?_).1 ht
      exact List.map_inj_left.1 hw x (Term.mem_freeVars.2 hx)
    · exact fun ht => ⟨v, rfl, ht⟩

/-! ### Defining what a name means -/

/-- The way that definitions go keeps its promise for the formulas of a class: it asserts them. -/
def Defines (D : Type u) (define : Term → ConvertM Unit) (P : Term → Prop) : Prop :=
  ∀ t s, s.Ready → t.Within s.vocabulary → P t → Ensures (define t) s fun _ s' => Asserts D t s s'

/-- **A formula is rewritten by its name** if the definition of the name is asserted, and the
definition says that the name implies the formula, or that the two are equivalent if the rewriting
is to be exact. -/
theorem ensures_named {D : Type u} {define : Term → ConvertM Unit} {P : Term → Prop} {exact : Bool}
    {t : Term} (definition : Term → Term) (hs : s.Ready) (ht : t.Within s.vocabulary)
    (hdefine : Defines D define P)
    (hP : ∀ atom, atom.isAtom = true → atom.isFormula = true → P (definition atom))
    (hw : ∀ atom voc, atom.Within voc → t.Within voc → (definition atom).Within voc)
    (hsound : ∀ (I : Interpretation D) atom v, I.Holds (definition atom) v →
      Upholds exact (I.Holds atom v) (I.Holds t v))
    (hcomplete : ∀ (I : Interpretation D) atom v, (I.Holds atom v ↔ I.Holds t v) →
      I.Holds (definition atom) v) :
    Ensures (do let atom ← nameFor t; define (definition atom); return atom) s fun atom s' =>
      Rewrites D exact [t] [atom] s s' ∧ atom.isAtom = true ∧ atom.isFormula = true := by
  refine (ensures_nameFor D t hs).bind fun atom s₁ hname => ?_
  have htw := ht.mono hname.grows.funs
  refine (hdefine (definition atom) s₁ hname.ready (hw atom _ hname.within htw)
    (hP atom hname.isAtom hname.isFormula)).bind fun _ s₂ hdef => ?_
  refine .pure ⟨⟨hname.grows.trans hdef.grows, hdef.ready, ?_, ?_, ?_⟩, hname.isAtom,
    hname.isFormula⟩
  · simpa using hname.within.mono hdef.grows.funs
  · intro I hI v
    exact .cons (hsound I atom v (hdef.sound I hI v)) .nil
  · intro I hI
    -- first the name is given the meaning of the formula, then the definition its own symbols
    obtain ⟨J, hIJ, hmeans⟩ := hname.meaning I
    have hJ : J.Satisfies s₁.clauses := hname.clauses ▸ hIJ.satisfies hs hI
    obtain ⟨K, hJK, hK⟩ := hdef.complete J hJ fun v =>
      hcomplete J atom v ((hmeans v).trans (hIJ.holds_within ht v).symm)
    refine ⟨K, hIJ.trans_minted hJK hname.grows.funs hdef.grows.funs, hK, fun v => ?_⟩
    exact .cons ((hmeans v).symm.trans (hJK.holds_within hname.within v).symm) .nil

end ConvertM

end ClauseForm
