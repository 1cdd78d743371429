import ClauseForm.Proofs.Conversion.NewSymbols
import ClauseForm.Proofs.Renaming.Check

/-!
# Bound names and vocabularies do not matter

Terms that are equal but for the names of their bound variables
(`ClauseForm.Term.AlphaEq`) have the same clauses up to a renaming, whatever vocabularies
they are converted with (`ClauseForm.convert_alphaEq`); and where the same numbers are next,
they have the very same clauses.

If two vocabularies hold equally many symbols, the one conversion mirrors the other symbol
for symbol. Otherwise, both are compared with a third one, by a vocabulary that holds as many
symbols as the larger one does: from there, the new symbols of either have only been moved
up (`ClauseForm.Relabeling.moveUp`), by different distances. So the one set of clauses can be
turned into the other (`ClauseForm.Renaming.exists_turns`). That declared symbols stay where
they are, as the heads of calls have to, is since the new ones are none.
-/

namespace ClauseForm

/-! ### Moving new symbols up -/

/-- The number moved up by a distance, unless it is below a bound. -/
def moveUp (bound distance i : Nat) : Nat :=
  if i < bound then i else i + distance

theorem moveUp_injective (bound distance : Nat) : Function.Injective (moveUp bound distance) := by
  intro i j h
  unfold moveUp at h
  split at h <;> split at h <;> omega

theorem moveUp_of_lt {bound distance i : Nat} (h : i < bound) : moveUp bound distance i = i :=
  if_pos h

theorem moveUp_add {bound bound' k : Nat} (h : bound ≤ bound') :
    moveUp bound (bound' - bound) (bound + k) = bound' + k := by
  unfold moveUp
  split <;> omega

/-- The symbol moved up, unless the vocabulary holds it. -/
def Symbol.moveUp (voc voc' : Vocabulary) : Symbol → Symbol
  | .var i => .var (ClauseForm.moveUp voc.vars.size (voc'.vars.size - voc.vars.size) i)
  | .fn i => .fn (ClauseForm.moveUp voc.funs.size (voc'.funs.size - voc.funs.size) i)

namespace Symbol

variable (voc voc' : Vocabulary)

theorem moveUp_injective : Function.Injective (moveUp voc voc') := by
  rintro (i | i) (j | j) h
  · exact congrArg var (ClauseForm.moveUp_injective _ _ (Symbol.var.inj h))
  · cases h
  · cases h
  · exact congrArg fn (ClauseForm.moveUp_injective _ _ (Symbol.fn.inj h))

theorem isVar_moveUp (s : Symbol) : (s.moveUp voc voc').isVar = s.isVar := by
  cases s <;> rfl

end Symbol

namespace Relabeling

/-- The relabeling that moves symbols up, except for those that the first vocabulary holds: by as
many places as the second one holds more. -/
def moveUp (voc voc' : Vocabulary) : Relabeling where
  var x := ⟨ClauseForm.moveUp voc.vars.size (voc'.vars.size - voc.vars.size) x.id⟩
  fn f := ⟨ClauseForm.moveUp voc.funs.size (voc'.funs.size - voc.funs.size) f.id, f.origin⟩
  var_injective := by
    rintro ⟨i⟩ ⟨j⟩ h
    exact congrArg Var.mk (ClauseForm.moveUp_injective _ _ (Var.mk.inj h))
  fn_injective := by
    rintro ⟨i, o⟩ ⟨j, o'⟩ h
    obtain ⟨hid, rfl⟩ := FunSym.mk.inj h
    exact congrArg (FunSym.mk · o) (ClauseForm.moveUp_injective _ _ hid)

variable {voc voc' : Vocabulary}

theorem fn_moveUp_of_lt {f : FunSym} (h : f.id < voc.funs.size) :
    (moveUp voc voc').fn f = f := by
  cases f
  exact congrArg (FunSym.mk · _) (moveUp_of_lt h)

theorem symbols_moveUp (voc voc' : Vocabulary) (t : Term) :
    (t.relabel (moveUp voc voc')).symbols = t.symbols.map (Symbol.moveUp voc voc') :=
  Term.symbols_mapSymbols (fun _ => rfl) (fun _ => rfl) t

end Relabeling

/-- Lists whose images are the same have the same images place by place. -/
theorem forall_mem_zip_of_map_eq {α β γ : Type} {f : α → γ} {g : β → γ} {as : List α}
    {bs : List β} (h : as.map f = bs.map g) : ∀ p ∈ as.zip bs, f p.1 = g p.2 := by
  have hall : List.Forall₂ (fun a b => f a = g b) as bs := by
    rwa [← List.forall₂_eq_eq_eq, List.forall₂_map_left_iff, List.forall₂_map_right_iff] at h
  exact fun p hp => (List.forall₂_iff_zip.1 hall).2 hp

namespace Renaming

open Term

/-- Where symbols are moved up in two ways, those that come to the same place match. -/
theorem exists_isMatching (v₁ v₂ v₃ : Vocabulary) :
    ∃ m, IsMatching m ∧ ∀ s u, m s = some u ↔ u.moveUp v₂ v₃ = s.moveUp v₁ v₃ := by
  have hinverse := (Symbol.moveUp_injective v₂ v₃).isPartialInv
  have hm : ∀ s u : Symbol, Function.partialInv (Symbol.moveUp v₂ v₃) (s.moveUp v₁ v₃) = some u ↔
      u.moveUp v₂ v₃ = s.moveUp v₁ v₃ := fun s u => hinverse u _
  refine ⟨_, ⟨fun {s t u} hs ht => ?_, fun {s u} hs => ?_⟩, hm⟩
  · exact Symbol.moveUp_injective v₁ v₃ (((hm s u).1 hs).symm.trans ((hm t u).1 ht))
  · have hsort := congrArg Symbol.isVar ((hm s u).1 hs)
    rwa [Symbol.isVar_moveUp, Symbol.isVar_moveUp] at hsort

/-- Terms that come to the same one when their symbols are moved up can be turned into each
other. -/
theorem exists_turns {v₁ v₂ v₃ : Vocabulary} {a b : Term}
    (h : a.relabel (.moveUp v₁ v₃) = b.relabel (.moveUp v₂ v₃))
    (hheads : ∀ p ∈ a.calls.zip b.calls, headsAgree p.1 p.2 = true) :
    ∃ m, IsMatching m ∧ Turns m a b := by
  obtain ⟨m, hm, hmeet⟩ := exists_isMatching v₁ v₂ v₃
  refine ⟨m, hm, hm.turns_iff.2 ⟨⟨?_, hheads⟩, fun p hp => (hmeet _ _).2 ?_⟩⟩
  · have hskeleton := congrArg skeleton h
    rwa [relabel, relabel, skeleton_mapSymbols, skeleton_mapSymbols] at hskeleton
  · have hsymbols := congrArg symbols h
    rw [Relabeling.symbols_moveUp, Relabeling.symbols_moveUp] at hsymbols
    exact (forall_mem_zip_of_map_eq hsymbols p hp).symm

end Renaming

namespace Conversion

open ConvertM Term

variable {t t' : Term} {ρ : Relabeling} {s₁ s₂ s₁' : Conversion}

/-! ### Two conversions -/

/-- **Adding a term with other bound names mirrors adding the term**, if nothing is simplified
before: from states that are alike, it gathers the same clauses, relabeled. -/
theorem exists_add_alphaEq (h : AlphaEq t t') (hk : t.KeepsArities)
    (hfix : ∀ f ∈ t.funs, ρ.fn f = f) (halike : Alike ρ s₁ s₂)
    (hplain : s₁.config.simplify = false) (hrun : add t s₁ = .ok () s₁') :
    ∃ s₂', add t' s₂ = .ok () s₂' ∧ Abreast ρ s₁ s₂ s₁' s₂' := by
  have hclosed : Corresponds (ρ.fn · = ·) (ρ.var · = ·) t.universalClosure
      t'.universalClosure := by
    refine h.universalClosure.mono (fun f hf g hfg => ?_) fun x hx => ?_
    · rw [funs_universalClosure] at hf
      exact (hfix f hf).trans hfg
    · rw [free_universalClosure] at hx
      exact absurd hx List.not_mem_nil
  rw [add_of_plain t hplain] at hrun
  obtain ⟨_, s₂', hrun', -, habreast⟩ := mirrors_addClosed _ s₂.clauses.length hclosed
    (keepsArities_universalClosure hk) s₁ s₂ () s₁' halike hrun
  refine ⟨s₂', ?_, habreast⟩
  rw [add_of_plain t' (halike.simplify.trans hplain)]
  exact hrun'

/-- From the beginning on, such conversions gather the same clauses, relabeled. -/
theorem exists_start_alphaEq {voc voc' : Vocabulary} (h : AlphaEq t t') (hk : t.KeepsArities)
    (hfix : ∀ f ∈ t.funs, ρ.fn f = f) (halike : Alike ρ (start {} voc) (start {} voc'))
    (hrun : add t (start {} voc) = .ok () s₁') :
    ∃ s₂', add t' (start {} voc') = .ok () s₂' ∧
      s₂'.clauses = s₁'.clauses.map (Clause.relabel ρ) := by
  obtain ⟨s₂', hrun', -, cs, hcs, hcs'⟩ := exists_add_alphaEq h hk hfix halike rfl hrun
  rw [start, List.nil_append] at hcs hcs'
  exact ⟨s₂', hrun', by rw [hcs, hcs']⟩

/-- Conversions are alike in the beginning if the symbols that come next are moved up by what one
vocabulary holds more than the other. -/
theorem alike_start {voc voc' : Vocabulary} (hv : voc.vars.size ≤ voc'.vars.size)
    (hf : voc.funs.size ≤ voc'.funs.size) :
    Alike (.moveUp voc voc') (start {} voc) (start {} voc') :=
  ⟨rfl, fun _ => congrArg Var.mk (moveUp_add hv),
    fun _ o => congrArg (FunSym.mk · o) (moveUp_add hf)⟩

/-! ### Two clause sets -/

/-- The function symbols of a clause set are those of its clauses. -/
theorem funs_toTerm (cs : List Clause) : (Cnf.toTerm ⟨cs⟩).funs = clauseFuns cs := by
  simp [Cnf.toTerm, Clause.toTerm, conj, disj, clauseFuns, List.flatMap_map]

theorem toTerm_relabel (ρ : Relabeling) (cs : List Clause) :
    Cnf.toTerm ⟨cs.map (Clause.relabel ρ)⟩ = (Cnf.toTerm ⟨cs⟩).relabel ρ := by
  simp [Cnf.toTerm, conj, Clause.toTerm_relabel, Function.comp_def]

/-- The heads of calls in two sets of clauses agree if the symbols come to the same places when they
are moved up: those that were not generated are those of the formulas, and stay where they are. -/
theorem headsAgree_of_minted {v₁ v₂ v₃ : Vocabulary} {f g : FunSym}
    (hf : f ∈ t.funs ∨ v₁.Minted s₁.vocabulary f) (hw : t.Within v₁)
    (hg : g ∈ t'.funs ∨ v₂.Minted s₂.vocabulary g) (hw' : t'.Within v₂)
    (h : (Relabeling.moveUp v₁ v₃).fn f = (Relabeling.moveUp v₂ v₃).fn g) :
    Renaming.headsAgree f g = true := by
  rw [Renaming.headsAgree, Bool.or_eq_true, Bool.or_eq_true]
  rcases hf with hf | hf
  · rcases hg with hg | hg
    · rw [Relabeling.fn_moveUp_of_lt (hw f hf), Relabeling.fn_moveUp_of_lt (hw' g hg)] at h
      exact Or.inl (Or.inl (beq_iff_eq.2 (congrArg FunSym.id h)))
    · exact Or.inr hg.2.2
  · exact Or.inl (Or.inr hf.2.2)

/-- Clauses gathered for two terms are the same up to renaming if they come to the same when symbols
are moved up. -/
theorem isomorphic_of_appends {v₁ v₂ v₃ : Vocabulary} {s₁ s₂ : Conversion}
    (h₁ : Appends t (start {} v₁) s₁) (hw : t.Within v₁) (h₂ : Appends t' (start {} v₂) s₂)
    (hw' : t'.Within v₂) (h : s₁.clauses.map (Clause.relabel (.moveUp v₁ v₃)) =
      s₂.clauses.map (Clause.relabel (.moveUp v₂ v₃))) :
    Cnf.isomorphic ⟨s₁.clauses⟩ ⟨s₂.clauses⟩ = true := by
  have hsame : (Cnf.toTerm ⟨s₁.clauses⟩).relabel (.moveUp v₁ v₃) =
      (Cnf.toTerm ⟨s₂.clauses⟩).relabel (.moveUp v₂ v₃) := by
    rw [← toTerm_relabel, ← toTerm_relabel, h]
  have hcalls := congrArg calls hsame
  rw [relabel, relabel, calls_mapSymbols, calls_mapSymbols] at hcalls
  have hheads : ∀ p ∈ (Cnf.toTerm ⟨s₁.clauses⟩).calls.zip (Cnf.toTerm ⟨s₂.clauses⟩).calls,
      Renaming.headsAgree p.1 p.2 = true := by
    intro p hp
    obtain ⟨hmem, hmem'⟩ := List.of_mem_zip hp
    refine headsAgree_of_minted (h₁.funs p.1 ?_) hw (h₂.funs p.2 ?_) hw'
      (forall_mem_zip_of_map_eq hcalls p hp)
    · exact funs_toTerm s₁.clauses ▸ mem_funs_of_mem_calls hmem
    · exact funs_toTerm s₂.clauses ▸ mem_funs_of_mem_calls hmem'
  obtain ⟨m, hm, hturns⟩ := Renaming.exists_turns hsame hheads
  exact hm.isomorphic hturns

theorem convert_of_add {config : Config} {voc : Vocabulary} {s : Conversion}
    (h : add t (start config voc) = .ok () s) :
    convert config t voc = (.ok ⟨s.clauses⟩, s.vocabulary) := by
  rw [convert, EStateM.run, h]
  rfl

/-- What a conversion comes to was gathered. -/
theorem exists_of_convert {config : Config} {voc voc' : Vocabulary} {cnf : Cnf}
    (h : convert config t voc = (.ok cnf, voc')) :
    ∃ s, add t (start config voc) = .ok () s ∧ cnf = ⟨s.clauses⟩ ∧ voc' = s.vocabulary := by
  rw [convert, EStateM.run] at h
  cases hrun : add t (start config voc) with
  | ok a s =>
    rw [hrun] at h
    cases h
    exact ⟨s, rfl, rfl, rfl⟩
  | error fault s =>
    rw [hrun] at h
    cases h

end Conversion

open Conversion ConvertM Term

/-- **The clauses of a term do not depend on the names of its bound variables, nor on the
vocabulary**, but for a renaming: a binder may be hidden, repeated or used again elsewhere, and the
vocabularies may hold different numbers of symbols. Where they hold equally many, the clauses are
the same. -/
theorem convert_alphaEq {t t' : Term} {v₁ v₂ : Vocabulary} (ht : t.WellFormed) (h : AlphaEq t t')
    (hw : t.Within v₁) (hw' : t'.Within v₂) :
    ∃ c₁ c₂ v₁' v₂', convert {} t v₁ = (.ok c₁, v₁') ∧ convert {} t' v₂ = (.ok c₂, v₂') ∧
      c₁.isomorphic c₂ = true ∧
      (v₁.vars.size = v₂.vars.size → v₁.funs.size = v₂.funs.size → c₁ = c₂) := by
  have hk := ht.keepsArities
  have hk' := h.keepsArities hk
  obtain ⟨_, s₁, _, -, hrun₁, haudited₁⟩ := exists_add_audited hk (start {} v₁)
  obtain ⟨_, s₂, _, -, hrun₂, haudited₂⟩ := exists_add_audited hk' (start {} v₂)
  refine ⟨⟨s₁.clauses⟩, ⟨s₂.clauses⟩, _, _, convert_of_add hrun₁, convert_of_add hrun₂, ?_,
    fun hv hf => ?_⟩
  · -- both are compared with a conversion by a vocabulary as large as the larger one
    let v₃ : Vocabulary := ⟨.replicate (max v₁.vars.size v₂.vars.size) none,
      .replicate (max v₁.funs.size v₂.funs.size) none⟩
    have halike₁ : Alike (.moveUp v₁ v₃) (start {} v₁) (start {} v₃) :=
      alike_start (by simp [v₃]) (by simp [v₃])
    have halike₂ : Alike (.moveUp v₂ v₃) (start {} v₂) (start {} v₃) :=
      alike_start (by simp [v₃]) (by simp [v₃])
    obtain ⟨s₃, hrun₃, hclauses₁⟩ := exists_start_alphaEq h hk
      (fun f hf => Relabeling.fn_moveUp_of_lt (hw f hf)) halike₁ hrun₁
    obtain ⟨s₃', hrun₃', hclauses₂⟩ := exists_start_alphaEq (.refl (fun _ => rfl) (fun _ => rfl) t')
      hk' (fun f hf => Relabeling.fn_moveUp_of_lt (hw' f hf)) halike₂ hrun₂
    rw [hrun₃] at hrun₃'
    cases hrun₃'
    exact isomorphic_of_appends haudited₁.appends hw haudited₂.appends hw'
      (hclauses₁.symm.trans hclauses₂)
  · have halike : Alike .refl (start {} v₁) (start {} v₂) :=
      ⟨rfl, fun k => congrArg (fun n => Var.mk (n + k)) hv,
        fun k o => congrArg (fun n => FunSym.mk (n + k) o) hf⟩
    obtain ⟨s, hrun, hclauses⟩ := exists_start_alphaEq h hk (fun _ _ => rfl) halike hrun₁
    rw [hrun₂] at hrun
    cases hrun
    rw [hclauses, List.map_congr_left fun c _ => Clause.relabel_refl c, List.map_id']

/-- The formula `![X]: (p(X) & ?[X, X]: r(X, Z))`, in which a binder is hidden, and another one
repeated. -/
def hiddenExample : Term :=
  .quant .all [⟨0⟩] (.conj [.call ⟨0, .declared⟩ [.var ⟨0⟩],
    .quant .exist [⟨0⟩, ⟨0⟩] (.call ⟨1, .declared⟩ [.var ⟨0⟩, .var ⟨1⟩])])

/-- The formula `![Y]: (p(Y) & ?[Y, W]: r(W, Z))`, the same but for the names. -/
def renamedExample : Term :=
  .quant .all [⟨2⟩] (.conj [.call ⟨0, .declared⟩ [.var ⟨2⟩],
    .quant .exist [⟨2⟩, ⟨3⟩] (.call ⟨1, .declared⟩ [.var ⟨3⟩, .var ⟨1⟩])])

theorem alphaEq_hiddenExample : AlphaEq hiddenExample renamedExample := by
  refine .quant rfl (.of_forall₂ (.cons (.of_forall₂_call rfl (.cons (.var ?_) .nil)) (.cons
    (.quant rfl (.of_forall₂_call rfl (.cons (.var ?_) (.cons (.var ?_) .nil)))) .nil)))
  all_goals simp [link, linkPair]

theorem convert_alphaEq_hiddenExample :
    hiddenExample.WellFormed ∧ AlphaEq hiddenExample renamedExample ∧
      hiddenExample.Within openVocabulary ∧ renamedExample.Within scopedVocabulary ∧
      ∃ c₁ c₂ v₁' v₂', convert {} hiddenExample openVocabulary = (.ok c₁, v₁') ∧
        convert {} renamedExample scopedVocabulary = (.ok c₂, v₂') ∧ c₁.isomorphic c₂ = true ∧
        (openVocabulary.vars.size = scopedVocabulary.vars.size →
          openVocabulary.funs.size = scopedVocabulary.funs.size → c₁ = c₂) :=
  ⟨by decide, alphaEq_hiddenExample, by decide, by decide,
    convert_alphaEq (by decide) alphaEq_hiddenExample (by decide) (by decide)⟩

end ClauseForm
