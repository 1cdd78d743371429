import ClauseForm.Proofs.Negation.Shape
import ClauseForm.Proofs.Syntax.Relabeling

/-!
# Other names for bound variables

Two terms correspond (`ClauseForm.Term.Corresponds`) if they differ in their symbols only:
their function symbols stand for each other, their free variables do, and what a
quantifier binds in the one is what the quantifier at the same place binds in the
other. Where every free symbol stands for itself, the terms are equal but for the names of
their bound variables (`ClauseForm.Term.AlphaEq`).

A quantifier may bind a variable that was bound before, or several times over; the newest
binding hides the others (`ClauseForm.link`).
-/

namespace ClauseForm

/-! ### Variables that stand for each other -/

/-- Which variables stand for each other if the two of a pair do, and nothing else any longer does
for either of them. -/
def linkPair (V : Var → Var → Prop) (p : Var × Var) (x y : Var) : Prop :=
  (x = p.1 ∧ y = p.2) ∨ (x ≠ p.1 ∧ y ≠ p.2 ∧ V x y)

/-- Which variables stand for each other below two quantifiers that bind `xs` and `ys`. -/
def link (V : Var → Var → Prop) (xs ys : List Var) : Var → Var → Prop :=
  (xs.zip ys).foldl linkPair V

section Link

variable {V W : Var → Var → Prop} {xs ys : List Var} {x y : Var}

/-- Bound variables stand for bound ones, and the others for what they stood for before. -/
theorem mem_of_link (hlength : xs.length = ys.length) (h : link V xs ys x y) :
    (x ∈ xs ∧ y ∈ ys) ∨ (x ∉ xs ∧ y ∉ ys ∧ V x y) := by
  induction xs generalizing ys V with
  | nil =>
    obtain rfl : ys = [] := List.length_eq_zero_iff.1 hlength.symm
    exact Or.inr ⟨by simp, by simp, h⟩
  | cons a xs ih =>
    cases ys with
    | nil => cases hlength
    | cons b ys =>
      rcases ih (Nat.succ.inj hlength) (show link (linkPair V (a, b)) xs ys x y from h) with
        ⟨hx, hy⟩ | ⟨hx, hy, ⟨rfl, rfl⟩ | ⟨hxa, hyb, hV⟩⟩
      · exact Or.inl ⟨List.mem_cons_of_mem a hx, List.mem_cons_of_mem b hy⟩
      · exact Or.inl ⟨List.mem_cons_self, List.mem_cons_self⟩
      · exact Or.inr ⟨by simp [hxa, hx], by simp [hyb, hy], hV⟩

/-- What stood for a variable before matters only if it is not bound. -/
theorem link_mono (hlength : xs.length = ys.length) (hVW : x ∉ xs → V x y → W x y)
    (h : link V xs ys x y) : link W xs ys x y := by
  induction xs generalizing ys V W with
  | nil =>
    obtain rfl : ys = [] := List.length_eq_zero_iff.1 hlength.symm
    exact hVW (by simp) h
  | cons a xs ih =>
    cases ys with
    | nil => cases hlength
    | cons b ys =>
      refine ih (Nat.succ.inj hlength) (fun hx hpair => ?_)
        (show link (linkPair V (a, b)) xs ys x y from h)
      rcases hpair with heq | ⟨hxa, hyb, hV⟩
      · exact Or.inl heq
      · exact Or.inr ⟨hxa, hyb, hVW (by simp [hxa, hx]) hV⟩

/-- Below one quantifier, every variable stands for itself if it did before. -/
theorem link_self (xs : List Var) (h : ∀ x, V x x) (x : Var) : link V xs xs x x := by
  induction xs generalizing V with
  | nil => exact h x
  | cons a xs ih =>
    refine ih (V := linkPair V (a, a)) fun y => ?_
    by_cases hy : y = a
    · exact Or.inl ⟨hy, hy⟩
    · exact Or.inr ⟨hy, hy, h y⟩

/-- Lists of variables that stand for each other below two quantifiers still do outside, if what is
bound is left out. -/
theorem forall₂_filter_link {us vs : List Var} (hlength : xs.length = ys.length)
    (h : List.Forall₂ (link V xs ys) us vs) :
    List.Forall₂ V (us.filter (· ∉ xs)) (vs.filter (· ∉ ys)) := by
  induction h with
  | nil => exact .nil
  | cons hd _ ih =>
    rcases mem_of_link hlength hd with ⟨hx, hy⟩ | ⟨hx, hy, hV⟩
    · rw [List.filter_cons_of_neg (by simpa using hx), List.filter_cons_of_neg (by simpa using hy)]
      exact ih
    · rw [List.filter_cons_of_pos (by simpa using hx), List.filter_cons_of_pos (by simpa using hy)]
      exact .cons hV ih

end Link

namespace Term

theorem free_of_isConstant {t : Term} (h : t.isConstant = true) : t.free = [] := by
  cases t <;> first | rfl | simp [isConstant, isNumeric] at h

/-! ### Terms that correspond -/

/-- The two terms differ in their symbols only: function symbols stand for each other by `G`, free
variables by `V`, and bound variables by their places. -/
inductive Corresponds (G : FunSym → FunSym → Prop) : (Var → Var → Prop) → Term → Term → Prop
  /-- Constants correspond to themselves. -/
  | constant {V : Var → Var → Prop} {t : Term} : t.isConstant = true → Corresponds G V t t
  /-- Variables correspond where they stand for each other. -/
  | var {V : Var → Var → Prop} {x y : Var} : V x y → Corresponds G V (.var x) (.var y)
  /-- So do function symbols. -/
  | const {V : Var → Var → Prop} {f g : FunSym} : G f g → Corresponds G V (.const f) (.const g)
  /-- Calls correspond argument by argument. -/
  | call {V : Var → Var → Prop} {f g : FunSym} {ss ts : List Term} : G f g →
    ss.length = ts.length → (∀ p ∈ ss.zip ts, Corresponds G V p.1 p.2) →
    Corresponds G V (.call f ss) (.call g ts)
  /-- Operators do the same. -/
  | node {V : Var → Var → Prop} {op : Op} {ss ts : List Term} : ss.length = ts.length →
    (∀ p ∈ ss.zip ts, Corresponds G V p.1 p.2) → Corresponds G V (.node op ss) (.node op ts)
  /-- Quantifiers correspond where their bodies do, with the bound variables for each other. -/
  | quant {V : Var → Var → Prop} {q : Quantifier} {xs ys : List Var} {body body' : Term} :
    xs.length = ys.length → Corresponds G (link V xs ys) body body' →
    Corresponds G V (.quant q xs body) (.quant q ys body')

/-- The terms are equal but for the names of their bound variables. -/
def AlphaEq (s t : Term) : Prop :=
  Corresponds (· = ·) (· = ·) s t

namespace Corresponds

variable {G G' : FunSym → FunSym → Prop} {V W : Var → Var → Prop} {s t : Term} {op : Op}
variable {ss ts : List Term}

theorem of_forall₂ (h : List.Forall₂ (Corresponds G V) ss ts) :
    Corresponds G V (.node op ss) (.node op ts) :=
  .node h.length_eq fun _ hp => (List.forall₂_iff_zip.1 h).2 hp

theorem of_forall₂_call {f g : FunSym} (hf : G f g) (h : List.Forall₂ (Corresponds G V) ss ts) :
    Corresponds G V (.call f ss) (.call g ts) :=
  .call hf h.length_eq fun _ hp => (List.forall₂_iff_zip.1 h).2 hp

/-- What corresponds to an operator over arguments. -/
theorem exists_of_node (h : Corresponds G V (.node op ss) t) :
    ∃ ts, t = .node op ts ∧ List.Forall₂ (Corresponds G V) ss ts := by
  cases h with
  | constant h => simp [isConstant, isNumeric] at h
  | node hlength h => exact ⟨_, rfl, List.forall₂_iff_zip.2 ⟨hlength, fun hp => h _ hp⟩⟩

theorem exists_of_quant {q : Quantifier} {xs : List Var} {body : Term}
    (h : Corresponds G V (.quant q xs body) t) :
    ∃ ys body', t = .quant q ys body' ∧ xs.length = ys.length ∧
      Corresponds G (link V xs ys) body body' := by
  cases h with
  | constant h => simp [isConstant, isNumeric] at h
  | quant hlength h => exact ⟨_, _, rfl, hlength, h⟩

/-- More symbols may stand for each other. -/
theorem mono (h : Corresponds G V s t) (hG : ∀ f ∈ s.funs, ∀ g, G f g → G' f g)
    (hV : ∀ x ∈ s.free, ∀ y, V x y → W x y) : Corresponds G' W s t := by
  induction h generalizing W with
  | constant h => exact .constant h
  | var h => exact .var (hV _ (by simp) _ h)
  | const h => exact .const (hG _ (by simp) _ h)
  | call hf hlength _ ih =>
    simp only [funs_call, free_call, List.forall_mem_cons, List.forall_mem_flatMap] at hG hV
    refine .call (hG.1 _ hf) hlength fun p hp => ?_
    have hmem := (List.of_mem_zip hp).1
    exact ih p hp (hG.2 _ hmem) (hV _ hmem)
  | node hlength _ ih =>
    simp only [funs_node, free_node, List.forall_mem_flatMap] at hG hV
    refine .node hlength fun p hp => ?_
    have hmem := (List.of_mem_zip hp).1
    exact ih p hp (hG _ hmem) (hV _ hmem)
  | quant hlength _ ih =>
    rw [funs_quant] at hG
    refine .quant hlength (ih hG fun x hx y => link_mono hlength fun hxs => hV x ?_ y)
    rw [free_quant, List.mem_filter]
    exact ⟨hx, decide_eq_true hxs⟩

/-- Every term corresponds to itself. -/
theorem refl (hG : ∀ f, G f f) (hV : ∀ x, V x x) (t : Term) : Corresponds G V t t := by
  induction t using Term.induct generalizing V with
  | var x => exact .var (hV x)
  | const f => exact .const (hG f)
  | call f args ih => exact .of_forall₂_call (hG f) (List.forall₂_same.2 fun a ha => ih a ha hV)
  | node op args ih => exact .of_forall₂ (List.forall₂_same.2 fun a ha => ih a ha hV)
  | quant q xs body ih => exact .quant rfl (ih (link_self xs hV))
  | _ => exact .constant rfl

/-- A term without quantifiers corresponds to what it is relabeled to. -/
theorem relabel (ρ : Relabeling) (h : t.QuantifierFree) :
    Corresponds (ρ.fn · = ·) (ρ.var · = ·) t (t.relabel ρ) := by
  induction t using Term.induct with
  | var x => exact .var rfl
  | const f => exact .const rfl
  | call f args ih =>
    rw [relabel_call]
    refine .of_forall₂_call rfl (List.forall₂_map_right_iff.2 (List.forall₂_same.2 fun a ha => ?_))
    exact ih a ha (quantifierFree_call.1 h a ha)
  | node op args ih =>
    rw [relabel_node]
    refine .of_forall₂ (List.forall₂_map_right_iff.2 (List.forall₂_same.2 fun a ha => ?_))
    exact ih a ha (quantifierFree_node.1 h a ha)
  | quant q xs body ih => exact absurd h not_quantifierFree_quant
  | _ => exact .constant rfl

/-- To a term without quantifiers, nothing else corresponds. -/
theorem eq_relabel {ρ : Relabeling} (h : Corresponds (ρ.fn · = ·) (ρ.var · = ·) s t)
    (hq : s.QuantifierFree) : t = s.relabel ρ := by
  have hargs : ∀ {ss ts : List Term}, ss.length = ts.length →
      (∀ p ∈ ss.zip ts, p.1.QuantifierFree → p.2 = p.1.relabel ρ) →
      (∀ a ∈ ss, a.QuantifierFree) → ts = ss.map (Term.relabel ρ) := by
    intro ss ts hlength h hq
    have hall : List.Forall₂ (fun a b : Term => a.relabel ρ = b) ss ts :=
      List.forall₂_iff_zip.2 ⟨hlength, fun hp => (h _ hp (hq _ (List.of_mem_zip hp).1)).symm⟩
    exact (List.forall₂_eq_eq_eq ▸ List.forall₂_map_left_iff.2 hall :).symm
  generalize hV : (ρ.var · = · : Var → Var → Prop) = V at h
  induction h with
  | constant h => exact (relabel_of_isConstant ρ h).symm
  | var h =>
    subst hV
    rw [relabel_var, h]
  | const h => rw [relabel_const, h]
  | call hf hlength _ ih =>
    rw [relabel_call, ← hf, hargs hlength (fun p hp h => ih p hp h hV) (quantifierFree_call.1 hq)]
  | node hlength _ ih =>
    rw [relabel_node, hargs hlength (fun p hp h => ih p hp h hV) (quantifierFree_node.1 hq)]
  | quant _ _ _ => exact absurd hq not_quantifierFree_quant

/-! ### What corresponding terms have in common -/

theorem keepsArities (h : Corresponds G V s t) (hk : s.KeepsArities) : t.KeepsArities := by
  have hargs : ∀ {ss ts : List Term}, (∀ p ∈ ss.zip ts, p.1.KeepsArities → p.2.KeepsArities) →
      ss.length = ts.length → (∀ a ∈ ss, a.KeepsArities) → ∀ b ∈ ts, b.KeepsArities := by
    intro ss ts h hlength
    exact forall_mem_of_forall₂ (List.forall₂_iff_zip.2 ⟨hlength, fun hp => h _ hp⟩) id
  induction h with
  | constant h => exact hk
  | var _ | const _ => simp [KeepsArities, keepsArity]
  | call _ hlength _ ih => exact keepsArities_call.2 (hargs ih hlength (keepsArities_call.1 hk))
  | node hlength _ ih =>
    obtain ⟨htakes, hk⟩ := keepsArities_node.1 hk
    exact keepsArities_node.2 ⟨hlength ▸ htakes, hargs ih hlength hk⟩
  | quant _ _ ih => exact keepsArities_quant.2 (ih (keepsArities_quant.1 hk))

/-- The free occurrences of variables stand for each other, one by one. -/
theorem free (h : Corresponds G V s t) : List.Forall₂ V s.free t.free := by
  have hargs : ∀ {V : Var → Var → Prop} {ss ts : List Term}, ss.length = ts.length →
      (∀ p ∈ ss.zip ts, List.Forall₂ V p.1.free p.2.free) →
      List.Forall₂ V (ss.flatMap Term.free) (ts.flatMap Term.free) := by
    intro V ss ts hlength h
    have hall : List.Forall₂ (fun a b : Term => List.Forall₂ V a.free b.free) ss ts :=
      List.forall₂_iff_zip.2 ⟨hlength, fun hp => h _ hp⟩
    exact List.rel_flatMap hall fun _ _ hab => hab
  induction h with
  | constant h => exact free_of_isConstant h ▸ .nil
  | var h => exact .cons h .nil
  | const h => exact .nil
  | call _ hlength _ ih | node hlength _ ih =>
    simp only [free_call, free_node]
    exact hargs hlength ih
  | quant hlength _ ih =>
    rw [free_quant, free_quant]
    exact forall₂_filter_link hlength ih

/-- Where every free variable stands for itself, the free variables are the same, in the same
order. -/
theorem freeVars (h : Corresponds G (· = ·) s t) : t.freeVars = s.freeVars := by
  have hfree : s.free = t.free := List.forall₂_eq_eq_eq ▸ h.free
  rw [Term.freeVars, Term.freeVars, collectFree_eq, collectFree_eq, hfree]

/-- The closures of terms correspond where the terms do and every free variable stands for
itself. -/
theorem universalClosure (h : Corresponds G (· = ·) s t) :
    Corresponds G (· = ·) s.universalClosure t.universalClosure := by
  rw [Term.universalClosure, Term.universalClosure, h.freeVars]
  cases s.freeVars with
  | nil => exact h
  | cons x xs =>
    refine .quant rfl (h.mono (fun _ _ _ hf => hf) fun y _ z hyz => ?_)
    exact hyz ▸ link_self (x :: xs) (fun _ => rfl) y

/-- What corresponds to an atom is one. -/
theorem isAtom (h : Corresponds G V s t) : t.isAtom = s.isAtom := by
  cases h <;> rfl

theorem literal (h : Corresponds G V s t) (sign : Bool) :
    Corresponds G V (Task.literal s sign) (Task.literal t sign) := by
  cases sign
  · exact .of_forall₂ (.cons h .nil)
  · exact h

/-- **The normal forms of corresponding terms correspond.** -/
theorem nnf {sign : Bool} (hs : Signed s sign) (h : Corresponds G V s t) :
    Corresponds G V (s.nnf sign) (t.nnf sign) := by
  induction hs generalizing t V with
  | atom sign ha =>
    rw [nnf_atom ha, nnf_atom (h.isAtom.trans ha)]
    exact h.literal sign
  | notEquals s t sign =>
    obtain ⟨ts, rfl, hargs⟩ := h.exists_of_node
    rw [Term.nnf, Term.nnf]
    exact (of_forall₂ hargs).literal _
  | not _ ih =>
    obtain ⟨ts, rfl, hargs⟩ := h.exists_of_node
    obtain ⟨a, _, ha, hnil, rfl⟩ := List.forall₂_cons_left_iff.1 hargs
    obtain rfl := List.forall₂_nil_left_iff.1 hnil
    rw [Term.nnf, Term.nnf]
    exact ih ha
  | conj _ ih | disj _ ih =>
    obtain ⟨ts, rfl, hargs⟩ := h.exists_of_node
    rw [Term.nnf, Term.nnf, nnfAll_eq_map, nnfAll_eq_map]
    refine of_forall₂ (List.forall₂_map_left_iff.2 (List.forall₂_map_right_iff.2 ?_))
    exact List.forall₂_iff_zip.2 ⟨hargs.length_eq, fun hp =>
      ih _ (List.of_mem_zip hp).1 (List.forall₂_zip hargs hp)⟩
  | nand _ _ ihs iht | nor _ _ ihs iht | implies _ _ ihs iht | iff _ _ ihs iht | xor _ _ ihs iht =>
    obtain ⟨ts, rfl, hargs⟩ := h.exists_of_node
    obtain ⟨a, _, ha, hrest, rfl⟩ := List.forall₂_cons_left_iff.1 hargs
    obtain ⟨b, _, hb, hnil, rfl⟩ := List.forall₂_cons_left_iff.1 hrest
    obtain rfl := List.forall₂_nil_left_iff.1 hnil
    simp only [Term.nnf, nnfAll_eq_map, List.map_cons, List.map_nil]
    exact of_forall₂ (.cons (ihs ha) (.cons (iht hb) .nil))
  | quant _ ih =>
    obtain ⟨ys, body', rfl, hlength, hbody⟩ := h.exists_of_quant
    rw [Term.nnf, Term.nnf]
    exact .quant hlength (ih hbody)

end Corresponds

end Term

end ClauseForm
