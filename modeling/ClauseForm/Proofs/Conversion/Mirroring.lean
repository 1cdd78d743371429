import ClauseForm.Conversion.Convert
import ClauseForm.Proofs.Conversion.Biconditional
import ClauseForm.Proofs.Conversion.Clearing
import ClauseForm.Proofs.Conversion.Distribution
import ClauseForm.Proofs.Conversion.Outcome
import ClauseForm.Proofs.Syntax.Alpha

/-!
# Two conversions side by side

Two steps of conversions are run from states that differ in which numbers the next symbols
are given (`ClauseForm.Conversion.Alike`), in the names of the symbols, in the clauses
gathered so far and in whether a journal is kept. The second step *mirrors* the first
(`ClauseForm.ConvertM.Mirrors`) if it comes to an end whenever the first does, with a
corresponding answer, and has then gathered the same clauses, relabeled.

Converting is mirrored by converting a corresponding formula
(`ClauseForm.ConvertM.mirrors_convertWithin`): one with other bound variables, or, for
definitions, one that is made of other symbols throughout.
-/

namespace ClauseForm

namespace Term

/-! ### Terms and their images -/

/-- The second term is the first one relabeled, in which there are no quantifiers, and the argument
counts are kept. -/
structure Twin (ρ : Relabeling) (t t' : Term) : Prop where
  eq : t' = t.relabel ρ
  quantifierFree : t.QuantifierFree
  keepsArities : t.KeepsArities

namespace Twin

variable {ρ : Relabeling} {t t' : Term} {ts ts' : List Term} {op : Op}

theorem keepsArities_right (h : Twin ρ t t') : t'.KeepsArities := by
  rw [h.eq, keepsArities_relabel]
  exact h.keepsArities

theorem corresponds (h : Twin ρ t t') : Corresponds (ρ.fn · = ·) (ρ.var · = ·) t t' :=
  h.eq ▸ .relabel ρ h.quantifierFree

/-- Lists of terms and their images. -/
theorem forall₂_iff : List.Forall₂ (Twin ρ) ts ts' ↔ ts' = ts.map (relabel ρ) ∧
    (∀ t ∈ ts, t.QuantifierFree) ∧ ∀ t ∈ ts, t.KeepsArities := by
  induction ts generalizing ts' with
  | nil => simp
  | cons t ts ih =>
    rw [List.forall₂_cons_left_iff, List.forall_mem_cons, List.forall_mem_cons, List.map_cons]
    constructor
    · rintro ⟨_, _, hd, htl, rfl⟩
      obtain ⟨rfl, hq, hk⟩ := ih.1 htl
      exact ⟨by rw [hd.eq], ⟨hd.quantifierFree, hq⟩, hd.keepsArities, hk⟩
    · rintro ⟨rfl, hq, hk⟩
      exact ⟨_, _, ⟨rfl, hq.1, hk.1⟩, ih.2 ⟨rfl, hq.2, hk.2⟩, rfl⟩

/-- The image of an operator over arguments is the operator over their images. -/
theorem node_iff : Twin ρ (.node op ts) t' ↔ op.takes ts.length = true ∧
    ∃ ts', t' = .node op ts' ∧ List.Forall₂ (Twin ρ) ts ts' := by
  constructor
  · rintro ⟨rfl, hq, hk⟩
    obtain ⟨htakes, hk⟩ := keepsArities_node.1 hk
    exact ⟨htakes, _, relabel_node .., forall₂_iff.2 ⟨rfl, quantifierFree_node.1 hq, hk⟩⟩
  · rintro ⟨htakes, ts', rfl, hargs⟩
    obtain ⟨rfl, hq, hk⟩ := forall₂_iff.1 hargs
    exact ⟨(relabel_node ..).symm, quantifierFree_node.2 hq, keepsArities_node.2 ⟨htakes, hk⟩⟩

theorem node (htakes : op.takes ts.length = true) (h : List.Forall₂ (Twin ρ) ts ts') :
    Twin ρ (.node op ts) (.node op ts') :=
  node_iff.2 ⟨htakes, ts', rfl, h⟩

theorem imp {s s' : Term} (hs : Twin ρ s s') (ht : Twin ρ t t') :
    Twin ρ (s.imp t) (s'.imp t') :=
  .node rfl (.cons hs (.cons ht .nil))

theorem var (ρ : Relabeling) (x : Var) : Twin ρ (.var x) (.var (ρ.var x)) :=
  ⟨(relabel_var ρ x).symm, .of_isObject rfl, .of_isObject rfl⟩

theorem of_isConstant (ρ : Relabeling) (h : t.isConstant = true) : Twin ρ t t := by
  have hobject : t.isObject = true := by
    cases t <;> first | rfl | simp [isConstant, isNumeric] at h
  exact ⟨(relabel_of_isConstant ρ h).symm, .of_isObject hobject, .of_isObject hobject⟩

theorem call (f : FunSym) (h : List.Forall₂ (Twin ρ) ts ts') :
    Twin ρ (.call f ts) (.call (ρ.fn f) ts') := by
  obtain ⟨rfl, hq, hk⟩ := forall₂_iff.1 h
  exact ⟨(relabel_call ..).symm, quantifierFree_call.2 hq, keepsArities_call.2 hk⟩

/-- A symbol over variables and its image. -/
theorem appliedTo (f : FunSym) (xs : List Var) : Twin ρ (f.appliedTo (xs.map .var))
    ((ρ.fn f).appliedTo ((xs.map ρ.var).map .var)) := by
  have hobject : ((f.appliedTo (xs.map .var)) : Term).isObject = true := by
    rw [FunSym.isObject_appliedTo, List.forall_mem_map]
    exact fun x _ => rfl
  exact ⟨by simp [Function.comp_def], .of_isObject hobject, .of_isObject hobject⟩

/-- The normal form of the image is the image of the normal form. -/
theorem nnf (h : Twin ρ t t') (sign : Bool) : Twin ρ (t.nnf sign) (t'.nnf sign) := by
  have hs := h.keepsArities.signed sign
  have hq := hs.quantifierFree_nnf h.quantifierFree
  exact ⟨(h.corresponds.nnf hs).eq_relabel hq, hq, hs.keepsArities_nnf h.keepsArities⟩

/-- What stands below the nested nodes of an operator. -/
theorem leaves (op : Op) (h : Twin ρ t t') :
    List.Forall₂ (Twin ρ) (t.leaves op) (t'.leaves op) := by
  refine forall₂_iff.2 ⟨by rw [h.eq, leaves_relabel], fun l hl p hp => ?_, fun l hl p hp => ?_⟩
  · exact h.quantifierFree p (mem_parts_trans hp (mem_parts_of_mem_leaves hl))
  · exact h.keepsArities p (mem_parts_trans hp (mem_parts_of_mem_leaves hl))

end Twin

/-- Where the argument counts are kept, a term has a text, whatever the format of numbers. -/
theorem exists_textBy (F : NumberFormat) (voc : Vocabulary) {t : Term} (h : t.KeepsArities) :
    ∃ text, t.textBy F voc = .ok text := by
  have hall : ∀ {ts : List Term}, (∀ t ∈ ts, ∃ text, t.textBy F voc = .ok text) →
      ∃ texts, textAllBy F voc ts = .ok texts := by
    intro ts h
    induction ts with
    | nil => exact ⟨[], rfl⟩
    | cons t ts ih =>
      rw [List.forall_mem_cons] at h
      obtain ⟨text, htext⟩ := h.1
      obtain ⟨texts, htexts⟩ := ih h.2
      exact ⟨text :: texts, by rw [textAllBy, htext, htexts]; rfl⟩
  induction t using Term.induct with
  | call f args ih =>
    obtain ⟨texts, htexts⟩ := hall fun a ha => ih a ha (keepsArities_call.1 h a ha)
    exact ⟨_, by rw [textBy, htexts]; rfl⟩
  | node op args ih =>
    obtain ⟨htakes, hargs⟩ := keepsArities_node.1 h
    obtain ⟨texts, htexts⟩ := hall fun a ha => ih a ha (hargs a ha)
    by_cases hop : op = .not
    · subst hop
      obtain ⟨a, rfl⟩ := Op.exists_of_takes_one rfl htakes
      obtain ⟨shown, hshown⟩ := ih a (by simp) (hargs a (by simp))
      exact ⟨_, by rw [textBy, hshown]; rfl⟩
    · cases args with
      | nil => cases op <;> first | exact absurd rfl hop | exact ⟨_, rfl⟩
      | cons a args =>
        have hrun : (Term.node op (a :: args)).textBy F voc = (textAllBy F voc (a :: args)).map
            fun shown => "(" ++ (" " ++ op.symbol ++ " ").intercalate shown ++ ")" := by
          cases op <;> first | exact absurd rfl hop | rfl
        exact ⟨_, by rw [hrun, htexts]; rfl⟩
  | quant q vars body ih =>
    obtain ⟨shown, hshown⟩ := ih (keepsArities_quant.1 h)
    exact ⟨_, by rw [textBy, hshown]; rfl⟩
  | bool b => cases b <;> exact ⟨_, rfl⟩
  | _ => exact ⟨_, rfl⟩

theorem exists_text (voc : Vocabulary) {t : Term} (h : t.KeepsArities) :
    ∃ text, t.text voc = .ok text :=
  exists_textBy .baseTen voc h

end Term

namespace Conversion

/-! ### Conversions that are alike -/

/-- The two conversions simplify both or neither, and give the next symbols numbers that the
relabeling exchanges for each other. -/
structure Alike (ρ : Relabeling) (s₁ s₂ : Conversion) : Prop where
  simplify : s₂.config.simplify = s₁.config.simplify
  vars : ∀ k, ρ.var ⟨s₁.vocabulary.vars.size + k⟩ = ⟨s₂.vocabulary.vars.size + k⟩
  funs : ∀ k o, ρ.fn ⟨s₁.vocabulary.funs.size + k, o⟩ = ⟨s₂.vocabulary.funs.size + k, o⟩

/-- From two states on, two conversions went on in the same way: they are still alike, and the
clauses that one of them gathered are those that the other one did, relabeled. -/
structure Abreast (ρ : Relabeling) (s₁ s₂ s₁' s₂' : Conversion) : Prop where
  alike : Alike ρ s₁' s₂'
  clauses : ∃ cs, s₁'.clauses = s₁.clauses ++ cs ∧
    s₂'.clauses = s₂.clauses ++ cs.map (Clause.relabel ρ)

variable {ρ : Relabeling} {s₁ s₂ s₁' s₂' s₁'' s₂'' : Conversion}

/-- Allotting as many symbols in both keeps conversions alike. -/
theorem Alike.allot (h : Alike ρ s₁ s₂) (hsimplify : s₂'.config.simplify = s₁'.config.simplify)
    (m n : Nat) (hv₁ : s₁'.vocabulary.vars.size = s₁.vocabulary.vars.size + m)
    (hv₂ : s₂'.vocabulary.vars.size = s₂.vocabulary.vars.size + m)
    (hf₁ : s₁'.vocabulary.funs.size = s₁.vocabulary.funs.size + n)
    (hf₂ : s₂'.vocabulary.funs.size = s₂.vocabulary.funs.size + n) : Alike ρ s₁' s₂' := by
  refine ⟨hsimplify, fun k => ?_, fun k o => ?_⟩
  · rw [hv₁, hv₂, Nat.add_assoc, Nat.add_assoc]
    exact h.vars (m + k)
  · rw [hf₁, hf₂, Nat.add_assoc, Nat.add_assoc]
    exact h.funs (n + k) o

theorem Abreast.of_eq (h : Alike ρ s₁' s₂') (h₁ : s₁'.clauses = s₁.clauses)
    (h₂ : s₂'.clauses = s₂.clauses) : Abreast ρ s₁ s₂ s₁' s₂' :=
  ⟨h, [], by simpa using h₁, by simpa using h₂⟩

theorem Abreast.trans (h : Abreast ρ s₁ s₂ s₁' s₂') (h' : Abreast ρ s₁' s₂' s₁'' s₂'') :
    Abreast ρ s₁ s₂ s₁'' s₂'' := by
  obtain ⟨cs, h₁, h₂⟩ := h.clauses
  obtain ⟨ds, h₁', h₂'⟩ := h'.clauses
  exact ⟨h'.alike, cs ++ ds, by rw [h₁', h₁, List.append_assoc],
    by rw [h₂', h₂, List.append_assoc, List.map_append]⟩

end Conversion

namespace ConvertM

open Conversion

variable {α β γ δ : Type} {ρ : Relabeling}

/-! ### Steps that mirror each other -/

/-- Where the first step comes to an end, the second one does from every state that is alike, with
an answer that is related to that of the first, and the two stay abreast. -/
def Mirrors (ρ : Relabeling) (R : α → β → Prop) (x : ConvertM α) (y : ConvertM β) : Prop :=
  ∀ (s₁ s₂ : Conversion) (a : α) (s₁' : Conversion), Alike ρ s₁ s₂ → x s₁ = .ok a s₁' →
    ∃ b s₂', y s₂ = .ok b s₂' ∧ R a b ∧ Abreast ρ s₁ s₂ s₁' s₂'

namespace Mirrors

variable {R : α → β → Prop} {S : γ → δ → Prop}

theorem pure {a : α} {b : β} (h : R a b) : Mirrors ρ R (Pure.pure a) (Pure.pure b) := by
  intro s₁ s₂ a' s₁' halike hrun
  cases hrun
  exact ⟨b, s₂, rfl, h, .of_eq halike rfl rfl⟩

theorem bind {x : ConvertM α} {y : ConvertM β} {f : α → ConvertM γ} {g : β → ConvertM δ}
    (h : Mirrors ρ R x y) (hf : ∀ a b, R a b → Mirrors ρ S (f a) (g b)) :
    Mirrors ρ S (x >>= f) (y >>= g) := by
  intro s₁ s₂ c s₁'' halike hrun
  obtain ⟨a, s₁', hx, hf'⟩ := bind_eq_ok.1 hrun
  obtain ⟨b, s₂', hy, hab, habreast⟩ := h s₁ s₂ a s₁' halike hx
  obtain ⟨d, s₂'', hg, hcd, habreast'⟩ := hf a b hab s₁' s₂' c s₁'' habreast.alike hf'
  exact ⟨d, s₂'', bind_eq_ok.2 ⟨b, s₂', hy, hg⟩, hcd, habreast.trans habreast'⟩

/-- Answers that need no state. -/
theorem ofExcept {x : Except Fault α} {y : Except Fault β}
    (h : ∀ a, x = .ok a → ∃ b, y = .ok b ∧ R a b) :
    Mirrors ρ R (ConvertM.ofExcept x) (ConvertM.ofExcept y) := by
  intro s₁ s₂ a s₁' halike hrun
  obtain ⟨hx, rfl⟩ := ofExcept_eq_ok.1 hrun
  obtain ⟨b, hy, hab⟩ := h a hx
  exact ⟨b, s₂, ofExcept_eq_ok.2 ⟨hy, rfl⟩, hab, .of_eq halike rfl rfl⟩

/-- Looking at two states. -/
theorem bind_get {f : Conversion → ConvertM γ} {g : Conversion → ConvertM δ}
    (h : ∀ s₁ s₂, Alike ρ s₁ s₂ → Mirrors ρ S (f s₁) (g s₂)) :
    Mirrors ρ S (get >>= f) (get >>= g) :=
  fun s₁ s₂ c s₁' halike hrun => h s₁ s₂ halike s₁ s₂ c s₁' halike hrun

/-- Events can be entered in a journal if they have an entry. -/
theorem report {e e' : Event} (h : ∀ voc, ∃ entry, e'.entry voc = .ok entry) :
    Mirrors ρ (fun _ _ => True) (ConvertM.report e) (ConvertM.report e') := by
  intro s₁ s₂ a s₁' halike hrun
  obtain ⟨entry, hentry⟩ := h s₂.vocabulary
  obtain ⟨s₂', hrun'⟩ := exists_report hentry
  have h₁ := eq_of_report hrun
  have h₂ := eq_of_report hrun'
  refine ⟨(), s₂', hrun', trivial, ?_⟩
  rw [h₁, h₂]
  exact .of_eq ⟨halike.simplify, halike.vars, halike.funs⟩ rfl rfl

/-- One step for each member of a list. -/
theorem mapM {R : α → β → Prop} {Q : γ → δ → Prop} {f : α → ConvertM γ} {g : β → ConvertM δ}
    {as : List α} {bs : List β} (h : List.Forall₂ R as bs)
    (hf : ∀ a ∈ as, ∀ b, R a b → Mirrors ρ Q (f a) (g b)) :
    Mirrors ρ (fun cs ds => cs.length = as.length ∧ List.Forall₂ Q cs ds)
      (as.mapM f) (bs.mapM g) := by
  induction h with
  | nil => exact pure ⟨rfl, .nil⟩
  | @cons a b as bs hd htl ih =>
    rw [List.forall_mem_cons] at hf
    rw [List.mapM_cons, List.mapM_cons]
    refine (hf.1 b hd).bind fun c d hcd => ?_
    refine (ih hf.2).bind ?_
    rintro cs ds ⟨hlength, hcds⟩
    exact pure ⟨congrArg (· + 1) hlength, .cons hcd hcds⟩

end Mirrors

end ConvertM

end ClauseForm
