import ClauseForm.Proofs.Renaming.Check

/-!
# Equality up to renaming as a relation

Two terms are equal up to renaming if some matching turns the one into the other
(`ClauseForm.Renaming.isomorphic_iff_exists_turns`), so what can be done with matchings
can be done with this relation. The identity is one, which makes it reflexive.

That it is symmetric has a stronger reason: a check does the same on either side. With the
two terms exchanged it goes through the same pairs the other way round, and ends with the
renaming that it found, read backwards (`ClauseForm.Renaming.check_inverse`).

Matchings compose, but the rule for the heads of calls does not: through a generated symbol
in the middle, any declared symbol can be reached from any other. Where the middle term
calls declared symbols only, the relation is transitive
(`ClauseForm.Renaming.isomorphic_refl_symm_trans`).
-/

namespace ClauseForm

/-- What is over against each other in the first and the last of three lists is told by what stands
between them. -/
theorem forall_mem_zip_trans {α β γ : Type} {as : List α} {bs : List β} {cs : List γ}
    {R : α → β → Prop} {S : β → γ → Prop} {T : α → γ → Prop} (hlength : as.length = bs.length)
    (hlength' : bs.length = cs.length) (hR : ∀ p ∈ as.zip bs, R p.1 p.2)
    (hS : ∀ p ∈ bs.zip cs, S p.1 p.2) (h : ∀ x, ∀ y ∈ bs, ∀ z, R x y → S y z → T x z) :
    ∀ p ∈ as.zip cs, T p.1 p.2 := by
  intro p hp
  obtain ⟨i, hi, rfl⟩ := List.getElem_of_mem hp
  have hias : i < as.length := by rw [List.length_zip] at hi; omega
  have hibs : i < bs.length := hlength ▸ hias
  have hics : i < cs.length := hlength' ▸ hibs
  have hab : (as[i], bs[i]) ∈ as.zip bs :=
    List.mem_iff_getElem.2 ⟨i, by rw [List.length_zip]; omega, by simp⟩
  have hbc : (bs[i], cs[i]) ∈ bs.zip cs :=
    List.mem_iff_getElem.2 ⟨i, by rw [List.length_zip]; omega, by simp⟩
  rw [List.getElem_zip]
  exact h _ _ (List.getElem_mem hibs) _ (hR _ hab) (hS _ hbc)

namespace Renaming

/-- The renaming read from right to left. -/
def inverse (r : Renaming) : Renaming :=
  ⟨r.backward, r.forward⟩

/-! ### Heads of calls -/

theorem headsAgree_comm (f g : FunSym) : headsAgree f g = headsAgree g f := by
  rw [headsAgree, headsAgree, Bool.or_assoc, Bool.or_assoc, BEq.comm,
    Bool.or_comm f.origin.isGenerated]

/-- Where heads agree with a declared symbol, they agree with each other. -/
theorem headsAgree_trans {f g h : FunSym} (hg : g.origin = .declared)
    (hfg : headsAgree f g = true) (hgh : headsAgree g h = true) :
    headsAgree f h = true := by
  simp only [headsAgree, hg, Origin.isGenerated, Bool.or_false, Bool.or_eq_true,
    beq_iff_eq] at hfg hgh ⊢
  rcases hfg with hfg | hf
  · rcases hgh with hgh | hh
    · exact Or.inl (Or.inl (hfg.trans hgh))
    · exact Or.inr hh
  · exact Or.inl (Or.inr hf)

end Renaming

namespace Term

open Renaming

variable {a b c : Term}

/-! ### Terms that resemble each other -/

theorem Resembles.symm (h : a.Resembles b) : b.Resembles a := by
  refine ⟨h.skeleton.symm, fun p hp => ?_⟩
  rw [← List.zip_swap, List.mem_map] at hp
  obtain ⟨q, hq, rfl⟩ := hp
  rw [headsAgree_comm]
  exact h.heads q hq

theorem resembles_comm : a.Resembles b ↔ b.Resembles a :=
  ⟨.symm, .symm⟩

theorem Resembles.trans (hab : a.Resembles b) (hbc : b.Resembles c)
    (hdeclared : ∀ f ∈ b.calls, f.origin = .declared) : a.Resembles c := by
  have htrans : ∀ f, ∀ g ∈ b.calls, ∀ h, headsAgree f g = true →
      headsAgree g h = true → headsAgree f h = true :=
    fun _ g hg _ => headsAgree_trans (hdeclared g hg)
  exact ⟨hab.skeleton.trans hbc.skeleton, forall_mem_zip_trans (length_calls_eq hab.skeleton)
    (length_calls_eq hbc.skeleton) hab.heads hbc.heads htrans⟩

end Term

namespace Renaming

open Term

variable {m m' : Symbol → Option Symbol} {a b c : Term}

/-! ### The other way round -/

theorem map_inverse_eq_some_iff {o : Option Renaming} {r : Renaming} :
    o.map inverse = some r ↔ o = some r.inverse := by
  rw [Option.map_eq_some_iff]
  constructor
  · rintro ⟨r, ho, rfl⟩
    exact ho
  · intro ho
    exact ⟨r.inverse, ho, rfl⟩

theorem pair_inverse (r : Renaming) (s u : Symbol) :
    r.inverse.pair u s = (r.pair s u).map inverse := by
  simp only [pair, inverse]
  cases r.forward.get? s with
  | none => cases r.backward.get? u <;> rfl
  | some image =>
    cases r.backward.get? u with
    | none => rfl
    | some preimage =>
      by_cases h : image = u ∧ preimage = s
      · simp [h, inverse]
      · simp [h, mt And.symm h]

theorem pairAll_inverse (r : Renaming) (ps : List (Symbol × Symbol)) :
    r.inverse.pairAll (ps.map Prod.swap) = (r.pairAll ps).map inverse := by
  induction ps generalizing r with
  | nil => rfl
  | cons p ps ih =>
    rw [List.map_cons, pairAll_cons, pairAll_cons, Prod.fst_swap, Prod.snd_swap, pair_inverse]
    cases r.pair p.1 p.2 with
    | none => rfl
    | some r₁ => exact ih r₁

/-- **A check of two terms exchanged finds the renaming read backwards.** -/
theorem check_inverse (r : Renaming) (a b : Term) :
    r.inverse.check b a = (r.check a b).map inverse := by
  ext r'
  -- what a check does besides comparing shapes and heads is to pair the symbols in order
  rw [map_inverse_eq_some_iff, check_eq_some_iff, check_eq_some_iff, resembles_comm,
    ← List.zip_swap, pairAll_inverse, map_inverse_eq_some_iff]

theorem checkAll_inverse (r : Renaming) (ss ts : List Term) :
    r.inverse.checkAll ts ss = (r.checkAll ss ts).map inverse := by
  induction ss generalizing ts r with
  | nil => cases ts <;> simp [checkAll]
  | cons s ss ih =>
    cases ts with
    | nil => simp [checkAll]
    | cons t ts =>
      rw [checkAll, checkAll, check_inverse]
      cases r.check s t with
      | none => rfl
      | some r₁ => exact ih r₁ ts

theorem checkClauses_inverse (r : Renaming) (cs ds : List Clause) :
    r.inverse.checkClauses ds cs = (r.checkClauses cs ds).map inverse := by
  rw [checkClauses_eq_checkAll, checkClauses_eq_checkAll, checkAll_inverse]

theorem isomorphic_comm (a b : Term) : a.isomorphic b = b.isomorphic a := by
  have hrun : check {} b a = (check {} a b).map inverse := check_inverse {} a b
  rw [Term.isomorphic, Term.isomorphic, hrun, Option.isSome_map]

/-! ### Matchings -/

/-- Equality up to renaming is a matter of matchings. -/
theorem isomorphic_iff_exists_turns :
    a.isomorphic b = true ↔ ∃ m, IsMatching m ∧ Turns m a b := by
  rw [Term.isomorphic, Option.isSome_iff_exists]
  constructor
  · rintro ⟨r, hrun⟩
    obtain ⟨hm, -, hturns⟩ := coherent_empty.turns_of_check hrun
    exact ⟨r.image?, hm, hturns⟩
  · rintro ⟨m, hm, hturns⟩
    exact hm.exists_check coherent_empty (by simp [ExtendedBy, image?]) hturns

theorem isMatching_some : IsMatching some where
  injective hs ht := Option.some.inj (hs.trans ht.symm)
  sort hs := by rw [Option.some.inj hs]

theorem turns_some (a : Term) : Turns some a a := by
  refine isMatching_some.turns_iff.2 ⟨.refl a, fun p hp => ?_⟩
  exact congrArg some ((List.forall₂_iff_zip.1 (List.forall₂_same.2 fun _ _ => rfl)).2 hp)

/-- One matching after the other is a matching. -/
theorem IsMatching.comp (hm : IsMatching m) (hm' : IsMatching m') :
    IsMatching fun s => (m s).bind m' where
  injective hs ht := by
    obtain ⟨s', hs, hs'⟩ := Option.bind_eq_some_iff.1 hs
    obtain ⟨t', ht, ht'⟩ := Option.bind_eq_some_iff.1 ht
    exact hm.injective hs (hm'.injective hs' ht' ▸ ht)
  sort hs := by
    obtain ⟨s', hs, hs'⟩ := Option.bind_eq_some_iff.1 hs
    rw [hm'.sort hs', hm.sort hs]

/-- One matching after the other turns the first of three terms into the last, if the one between
them calls declared symbols only. -/
theorem Turns.trans (hm : IsMatching m) (hm' : IsMatching m') (hab : Turns m a b)
    (hbc : Turns m' b c) (hdeclared : ∀ f ∈ b.calls, f.origin = .declared) :
    Turns (fun s => (m s).bind m') a c := by
  obtain ⟨hsim, hpairs⟩ := hm.turns_iff.1 hab
  obtain ⟨hsim', hpairs'⟩ := hm'.turns_iff.1 hbc
  refine (hm.comp hm').turns_iff.2 ⟨hsim.trans hsim' hdeclared, ?_⟩
  have hcomp : ∀ x, ∀ y ∈ b.symbols, ∀ z, m x = some y → m' y = some z →
      (m x).bind m' = some z := fun x y _ z hxy hyz => Option.bind_eq_some_iff.2 ⟨y, hxy, hyz⟩
  exact forall_mem_zip_trans (length_symbols_eq hsim.skeleton) (length_symbols_eq hsim'.skeleton)
    hpairs hpairs' hcomp

/-! ### The relation -/

theorem isomorphic_refl (a : Term) : a.isomorphic a = true :=
  isomorphic_iff_exists_turns.2 ⟨some, isMatching_some, turns_some a⟩

/-- **Equality up to renaming is reflexive and symmetric**, for terms and for clause sets: what a
check finds, a check the other way round finds read backwards. **Through a term that calls declared
symbols only, it is transitive.** -/
theorem isomorphic_refl_symm_trans (a b c : Term) (cs ds : Cnf) :
    a.isomorphic a = true ∧ a.isomorphic b = b.isomorphic a ∧
      (∀ r, check {} a b = some r → check {} b a = some r.inverse) ∧
      cs.isomorphic cs = true ∧ cs.isomorphic ds = ds.isomorphic cs ∧
      (∀ r, checkClauses {} cs.clauses ds.clauses = some r →
        checkClauses {} ds.clauses cs.clauses = some r.inverse) ∧
      ((∀ f ∈ b.calls, f.origin = .declared) → a.isomorphic b = true → b.isomorphic c = true →
        a.isomorphic c = true) := by
  refine ⟨isomorphic_refl a, isomorphic_comm a b, fun r hrun => ?_, ?_, ?_, fun r hrun => ?_, ?_⟩
  · have hinverse : check {} b a = (check {} a b).map inverse := check_inverse {} a b
    rw [hinverse, hrun, Option.map_some]
  · rw [← isomorphic_toTerm]
    exact isomorphic_refl cs.toTerm
  · rw [← isomorphic_toTerm, ← isomorphic_toTerm]
    exact isomorphic_comm cs.toTerm ds.toTerm
  · have hinverse : checkClauses {} ds.clauses cs.clauses =
        (checkClauses {} cs.clauses ds.clauses).map inverse := checkClauses_inverse {} _ _
    rw [hinverse, hrun, Option.map_some]
  · intro hdeclared hab hbc
    obtain ⟨m, hm, hab⟩ := isomorphic_iff_exists_turns.1 hab
    obtain ⟨m', hm', hbc⟩ := isomorphic_iff_exists_turns.1 hbc
    exact isomorphic_iff_exists_turns.2 ⟨_, hm.comp hm', hab.trans hm hm' hbc hdeclared⟩

/-- The term `p(X, sk(X))`, in which `sk` is a Skolem function. -/
def skolemExample : Term :=
  .call ⟨0, .declared⟩ [.var ⟨0⟩, .call ⟨2, .skolem⟩ [.var ⟨0⟩]]

/-- The term `p(Y, s(Y))`. -/
def declaredExample : Term :=
  .call ⟨0, .declared⟩ [.var ⟨1⟩, .call ⟨1, .declared⟩ [.var ⟨1⟩]]

/-- The term `p(Z, d(Z))`, in which `d` is the name of a subformula. -/
def definedExample : Term :=
  .call ⟨0, .declared⟩ [.var ⟨2⟩, .call ⟨3, .definition⟩ [.var ⟨2⟩]]

theorem isomorphic_refl_symm_trans_declaredExample :
    (∀ f ∈ declaredExample.calls, f.origin = .declared) ∧
      skolemExample.isomorphic declaredExample = true ∧
      declaredExample.isomorphic definedExample = true ∧
      skolemExample.isomorphic definedExample = true ∧
      ∃ r, r.size = 3 ∧ check {} skolemExample declaredExample = some r ∧
        check {} declaredExample skolemExample = some r.inverse := by
  have hdeclared : ∀ f ∈ declaredExample.calls, f.origin = .declared := by decide
  have hfirst : skolemExample.isomorphic declaredExample = true := by decide
  have hlast : declaredExample.isomorphic definedExample = true := by decide
  obtain ⟨-, -, hinverse, -, -, -, htrans⟩ :=
    isomorphic_refl_symm_trans skolemExample declaredExample definedExample ⟨[]⟩ ⟨[]⟩
  exact ⟨hdeclared, hfirst, hlast, htrans hdeclared hfirst hlast, _, rfl, rfl, hinverse _ rfl⟩

/-- Through `sk(X)`, a call of `p` is equal to a call of `q`, but the two are not equal. -/
example :
    let call (f : FunSym) : Term := .call f [.var ⟨0⟩]
    (call ⟨0, .declared⟩).isomorphic (call ⟨2, .skolem⟩) = true ∧
      (call ⟨2, .skolem⟩).isomorphic (call ⟨1, .declared⟩) = true ∧
      (call ⟨0, .declared⟩).isomorphic (call ⟨1, .declared⟩) = false := by
  decide

end Renaming

end ClauseForm
