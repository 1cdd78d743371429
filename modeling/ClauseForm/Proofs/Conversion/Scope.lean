import ClauseForm.Proofs.Conversion.Minting
import ClauseForm.Proofs.Syntax.Replacement

/-!
# Reading a formula in a scope

In the scope of the quantifiers around it, a formula is read with its bound
variables standing for the objects that took their places
(`ClauseForm.Scope.read`). A scope *fits* a vocabulary
(`ClauseForm.Scope.Fits`) if these objects are made of the universal variables among
them and of symbols allotted so far; then the reading depends on nothing else
(`ClauseForm.Scope.Fits.read_congr`).

Entering a quantifier keeps that (`ClauseForm.Scope.Enters`). The fresh variables of a
universal quantifier can be given any values
(`ClauseForm.ConvertM.ensures_bindFresh`), and the functions of an existential one any
that depend on the universal variables (`ClauseForm.ConvertM.ensures_bindSkolem`).
-/

universe u

namespace ClauseForm

open Interpretation

namespace Scope

variable {D : Type u}

/-! ### What a scope makes of the variables -/

/-- What a variable is replaced by in a scope. -/
def place (σ : Scope) (x : Var) : Term :=
  (σ.get? x).getD (.var x)

/-- The valuation under which a formula is read in a scope. -/
def read (I : Interpretation D) (σ : Scope) (v : Var → D) (x : Var) : D :=
  I.denote v (σ.place x)

theorem place_empty (x : Var) : place .empty x = .var x :=
  rfl

theorem place_add (σ : Scope) (x y : Var) (t : Term) :
    place (σ.add x t) y = if y = x then t else σ.place y := by
  split
  · rename_i h
    rw [place, h, Bindings.get?_add_self, Option.getD_some]
  · rename_i h
    rw [place, Bindings.get?_add_of_ne h, place]

@[simp]
theorem read_empty (I : Interpretation D) (v : Var → D) : read I .empty v = v := by
  funext x
  rw [read, place_empty, denote_var]

/-! ### Scopes that fit -/

/-- The universals of a scope are variables. -/
theorem isVar_of_mem_universals {σ : Scope} {t : Term} (h : t ∈ σ.universals) :
    ∃ x, t = .var x := by
  have ht : t.isVar = true := (List.mem_filter.1 h).2
  cases t <;> simp [Term.isVar] at ht
  exact ⟨_, rfl⟩

theorem universals_add (σ : Scope) (x : Var) (t : Term) :
    universals (σ.add x t) = σ.universals ++ [t].filter Term.isVar := by
  simp [universals, Bindings.values]

theorem universals_add_var (σ : Scope) (x y : Var) :
    universals (σ.add x (.var y)) = σ.universals ++ [.var y] :=
  universals_add ..

/-- Skolem terms are no variables. -/
theorem universals_add_appliedTo (σ : Scope) (x : Var) (f : FunSym) (args : List Term) :
    universals (σ.add x (f.appliedTo args)) = σ.universals := by
  rw [universals_add, List.filter_singleton, f.isVar_appliedTo]
  exact List.append_nil _

/-- What the variables of a scope stand for is made of its universal variables and of symbols
allotted so far. -/
structure Fits (σ : Scope) (voc : Vocabulary) : Prop where
  object : ∀ {x t}, σ.get? x = some t → t.isObject = true
  within : ∀ {x t}, σ.get? x = some t → t.Within voc
  vars : ∀ {x t}, σ.get? x = some t → ∀ y ∈ t.vars, .var y ∈ σ.universals
  small : ∀ {y}, .var y ∈ σ.universals → y.id < voc.vars.size

theorem fits_empty (voc : Vocabulary) : Fits .empty voc :=
  ⟨by simp, by simp, by simp, by simp [universals, Bindings.values]⟩

namespace Fits

variable {σ : Scope} {voc : Vocabulary}

/-- Allotting symbols keeps what fits. -/
theorem mono (h : σ.Fits voc) {voc' : Vocabulary} (hv : voc.vars.size ≤ voc'.vars.size)
    (hf : voc.funs.size ≤ voc'.funs.size) : σ.Fits voc' :=
  ⟨h.object, fun hx => (h.within hx).mono hf, h.vars, fun hy => Nat.lt_of_lt_of_le (h.small hy) hv⟩

/-- Adding a binding keeps what fits, if the object added does. -/
theorem add (h : σ.Fits voc) {x : Var} {t : Term} (ho : t.isObject = true) (hw : t.Within voc)
    (hv : ∀ y ∈ t.vars, .var y ∈ universals (σ.add x t)) (hs : ∀ y ∈ t.vars, y.id < voc.vars.size) :
    Fits (σ.add x t) voc := by
  have hget : ∀ {y u}, Bindings.get? (σ.add x t) y = some u → u = t ∨ σ.get? y = some u := by
    intro y u hy
    by_cases hyx : y = x
    · subst hyx
      rw [Bindings.get?_add_self] at hy
      exact Or.inl (Option.some.inj hy).symm
    · rw [Bindings.get?_add_of_ne hyx] at hy
      exact Or.inr hy
  have hold : ∀ {y : Var}, .var y ∈ σ.universals → .var y ∈ universals (σ.add x t) := fun hy => by
    rw [universals_add]
    exact List.mem_append_left _ hy
  refine ⟨fun hy => ?_, fun hy => ?_, fun hy => ?_, fun {y} hy => ?_⟩
  · rcases hget hy with rfl | hy
    · exact ho
    · exact h.object hy
  · rcases hget hy with rfl | hy
    · exact hw
    · exact h.within hy
  · rcases hget hy with rfl | hy
    · exact hv
    · exact fun z hz => hold (h.vars hy z hz)
  · rw [universals_add, List.mem_append, List.mem_filter, List.mem_singleton] at hy
    rcases hy with hy | ⟨rfl, -⟩
    · exact h.small hy
    · exact hs y (by simp)

/-- Where all its variables are bound, a term is read with the values of the universal variables
alone, and with symbols allotted before. -/
theorem read_congr (h : σ.Fits voc) {I J : Interpretation D} {after : Vocabulary}
    (hIJ : I.AgreesOff (voc.Minted after) J) {v w : Var → D}
    (hvw : ∀ y, .var y ∈ σ.universals → w y = v y) {x : Var} (hx : (σ.get? x).isSome = true) :
    σ.read J w x = σ.read I v x := by
  obtain ⟨t, ht⟩ := Option.isSome_iff_exists.1 hx
  have hplace : σ.place x = t := by rw [place, ht, Option.getD_some]
  rw [read, read, hplace]
  exact hIJ.denote_eq (h.within ht).not_minted fun y hy =>
    hvw y (h.vars ht y (Term.mem_vars_of_mem_free hy))

end Fits

/-! ### Entering a quantifier -/

/-- The variables are bound anew, symbols are allotted for that, and everything else stays. -/
structure Enters (vars : List Var) (σ σ' : Scope) (s s' : Conversion) : Prop where
  grows : s.Grows s'
  clauses : s'.clauses = s.clauses
  other : ∀ x ∉ vars, σ'.get? x = σ.get? x
  bound : ∀ x ∈ vars, (σ'.get? x).isSome = true
  fits : σ'.Fits s'.vocabulary
  universals : σ.universals <+: σ'.universals

namespace Enters

variable {vars : List Var} {σ σ' : Scope} {s s' : Conversion}

theorem refl (h : σ.Fits s.vocabulary) : Enters [] σ σ s s :=
  ⟨.refl s, rfl, fun _ _ => rfl, by simp, h, List.prefix_refl _⟩

/-- Binding one variable, and then the others. -/
theorem cons {x : Var} {t : Term} {s'' : Conversion} (hg : s.Grows s') (hc : s'.clauses = s.clauses)
    (h : Enters vars (σ.add x t) σ' s' s'') : Enters (x :: vars) σ σ' s s'' := by
  refine ⟨hg.trans h.grows, h.clauses.trans hc, fun y hy => ?_, fun y hy => ?_, h.fits,
    List.IsPrefix.trans ?_ h.universals⟩
  · rw [List.mem_cons, not_or] at hy
    rw [h.other y hy.2, Bindings.get?_add_of_ne hy.1]
  · by_cases hyv : y ∈ vars
    · exact h.bound y hyv
    · obtain rfl : y = x := (List.mem_cons.1 hy).resolve_right hyv
      rw [h.other y hyv, Bindings.get?_add_self]
      rfl
  · rw [universals_add]
    exact List.prefix_append _ _

/-- Outside the variables bound anew, a formula is read as before. -/
theorem read_other (h : Enters vars σ σ' s s') (I : Interpretation D) (v : Var → D) :
    ∀ x ∉ vars, σ'.read I v x = σ.read I v x := by
  intro x hx
  rw [read, read, place, place, h.other x hx]

/-- What is free in the body of a quantifier is bound once the quantifier is entered. -/
theorem bound_of_mem_free {q : Quantifier} {body : Term} (h : Enters vars σ σ' s s')
    (hfree : ∀ x ∈ (Term.quant q vars body).free, (σ.get? x).isSome = true) :
    ∀ x ∈ body.free, (σ'.get? x).isSome = true := by
  intro x hx
  by_cases hxv : x ∈ vars
  · exact h.bound x hxv
  · rw [h.other x hxv]
    refine hfree x ?_
    rw [Term.free_quant, List.mem_filter]
    exact ⟨hx, decide_eq_true hxv⟩

end Enters

end Scope

namespace ConvertM

open Conversion Scope

variable {D : Type u} {s : Conversion} {σ : Scope}

/-- **The fresh variables of a universal quantifier can be given any values**, and the others can
keep theirs. -/
theorem ensures_bindFresh (D : Type u) (vars : List Var) (h : σ.Fits s.vocabulary) :
    Ensures (σ.bindFresh vars) s fun σ' s' => Enters vars σ σ' s s' ∧
      ∀ v w : Var → D, ∃ v' : Var → D, (∀ y, y.id < s.vocabulary.vars.size → v' y = v y) ∧
        ∀ I x, x ∈ vars → σ'.read I v' x = w x := by
  induction vars generalizing σ s with
  | nil => exact .pure ⟨.refl h, fun v _ => ⟨v, fun _ _ => rfl, by simp⟩⟩
  | cons x vars ih =>
    -- the state after one variable more was allotted
    let fresh : Var := ⟨s.vocabulary.vars.size⟩
    let s₁ : Conversion := { s with vocabulary := (s.vocabulary.freshLike x).2 }
    have hsize : s₁.vocabulary.vars.size = s.vocabulary.vars.size + 1 := by
      simp [s₁, Vocabulary.freshLike]
    have hgrows : s.Grows s₁ := ⟨rfl, rfl, by omega, Nat.le_refl _, List.prefix_refl _⟩
    have hfits : Fits (σ.add x (.var fresh)) s₁.vocabulary := by
      refine (h.mono hgrows.vars hgrows.funs).add rfl (by simp [Term.Within, Term.funs, Term.head?])
        (fun y hy => ?_) fun y hy => ?_
      · obtain rfl : y = fresh := by simpa using hy
        rw [universals_add]
        exact List.mem_append_right _ (by simp [Term.isVar])
      · obtain rfl : y = fresh := by simpa using hy
        exact hsize ▸ Nat.lt_succ_self _
    have hrun : Ensures (freshLike x) s fun y s' => y = fresh ∧ s' = s₁ := ⟨_, _, rfl, rfl, rfl⟩
    rw [Scope.bindFresh]
    refine hrun.bind ?_
    rintro _ _ ⟨rfl, rfl⟩
    refine (ih hfits).mono ?_
    rintro σ' s' ⟨henters, hvalues⟩
    refine ⟨henters.cons hgrows rfl, fun v w => ?_⟩
    obtain ⟨v', hold, hnew⟩ := hvalues (fun y => if y = fresh then w x else v y) w
    refine ⟨v', fun y hy => ?_, fun I y hy => ?_⟩
    · rw [hold y (by omega), if_neg]
      rintro rfl
      exact Nat.lt_irrefl _ hy
    · by_cases hyv : y ∈ vars
      · exact hnew I y hyv
      · obtain rfl : y = x := (List.mem_cons.1 hy).resolve_right hyv
        have hplace : place σ' y = .var fresh := by
          rw [place, henters.other y hyv, Bindings.get?_add_self, Option.getD_some]
        rw [Scope.read, hplace, denote_var, hold fresh (hsize ▸ Nat.lt_succ_self _), if_pos rfl]

/-- **The functions of an existential quantifier can be given any values** that depend on those of
the universal variables. -/
theorem ensures_bindSkolem (D : Type u) (vars : List Var) {args : List Term}
    (hargs : args = σ.universals) (h : σ.Fits s.vocabulary) :
    Ensures (σ.bindSkolem args vars) s fun σ' s' => Enters vars σ σ' s s' ∧
      ∀ (I : Interpretation D) (g : List D → Var → D),
        ∃ J, I.AgreesOff (s.vocabulary.Minted s'.vocabulary) J ∧
          ∀ v x, x ∈ vars → σ'.read J v x = g (args.map (J.denote v)) x := by
  induction vars generalizing σ s with
  | nil => exact .pure ⟨.refl h, fun I g => ⟨I, .refl I _, by simp⟩⟩
  | cons x vars ih =>
    rw [Scope.bindSkolem]
    refine (ensures_newSkolem s).bind fun f s₁ hf => ?_
    have hvar : ∀ a ∈ args, ∃ y, a = .var y := fun a ha => isVar_of_mem_universals (hargs ▸ ha)
    -- the Skolem term mentions the universal variables in place, and makes no new one
    have hvars : ∀ y ∈ (f.appliedTo args).vars, .var y ∈ σ.universals := by
      intro y hy
      rw [FunSym.vars_appliedTo, List.mem_flatMap] at hy
      obtain ⟨a, ha, hy⟩ := hy
      obtain ⟨z, rfl⟩ := hvar a ha
      obtain rfl : y = z := by simpa using hy
      exact hargs ▸ ha
    have huniversals := universals_add_appliedTo σ x f args
    have hfits : Fits (σ.add x (f.appliedTo args)) s₁.vocabulary := by
      refine (h.mono hf.grows.vars hf.grows.funs).add ?_ ?_ ?_ ?_
      · rw [FunSym.isObject_appliedTo]
        intro a ha
        obtain ⟨y, rfl⟩ := hvar a ha
        rfl
      · rw [FunSym.within_appliedTo]
        refine ⟨hf.allotted, fun a ha => ?_⟩
        obtain ⟨y, rfl⟩ := hvar a ha
        simp [Term.Within, Term.funs, Term.head?]
      · exact huniversals ▸ hvars
      · exact fun y hy => Nat.lt_of_lt_of_le (h.small (hvars y hy)) hf.grows.vars
    refine (ih (hargs.trans huniversals.symm) hfits).mono ?_
    rintro σ' s' ⟨henters, hvalues⟩
    refine ⟨henters.cons hf.grows hf.clauses, fun I g => ?_⟩
    -- the first function is given its values before the others, which leave it alone
    obtain ⟨J, hIJ, hJ⟩ := hvalues (I.withFn f fun ds => g ds x) g
    refine ⟨J, (agreesOff_withFn hf.minted _).trans_minted hIJ hf.grows.funs henters.grows.funs,
      fun v y hy => ?_⟩
    by_cases hyv : y ∈ vars
    · exact hJ v y hyv
    · obtain rfl : y = x := (List.mem_cons.1 hy).resolve_right hyv
      have hplace : place σ' y = f.appliedTo args := by
        rw [place, henters.other y hyv, Bindings.get?_add_self, Option.getD_some]
      rw [Scope.read, hplace, denote_appliedTo, hIJ.fn f (Vocabulary.not_minted_of_lt hf.allotted),
        fn_withFn]

end ConvertM

end ClauseForm
