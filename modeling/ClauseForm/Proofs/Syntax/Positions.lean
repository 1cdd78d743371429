import Mathlib.Data.List.Induction
import ClauseForm.Proofs.Syntax.Free

/-!
# Positions in a term

A position (`ClauseForm.Position`) says how to go down from the top of a term, one argument
after the other. What stands there may be asked for under a condition on all that is gone
through on the way (`ClauseForm.Term.LeadsTo`). So a variable occurs free at a position if
the position leads to it and no quantifier on the way binds it
(`ClauseForm.Term.FreeAt`).

Positions are ordered from left to right, and a list may be what stands at certain
positions in this order, none left out and none used twice (`ClauseForm.LeftToRight`); what
is listed so for each argument is listed so for all of them together
(`ClauseForm.Term.leftToRight_below`). The free occurrences of variables are listed so
(`ClauseForm.Term.leftToRight_free`), and the list of free variables has each where it
occurs free for the first time (`ClauseForm.Term.freeAt_pairwise_freeVars`).
-/

namespace ClauseForm

/-- A way down from the top of a term: at each step the place of the argument to go on to. -/
abbrev Position : Type :=
  List Nat

/-- Where the two positions part, the first goes on to an earlier argument, or it ends there. -/
def Position.LeftOf (p q : Position) : Prop :=
  List.Lex (· < ·) p q

section LeftToRight

variable {α : Type} {R R' : Position → α → Prop} {xs ys : List α}

/-- The list is made up of what `R` says to stand at positions, from left to right, each position
once. -/
def LeftToRight (R : Position → α → Prop) (xs : List α) : Prop :=
  ∃ l : List (Position × α), l.map Prod.snd = xs ∧ l.Pairwise (fun b c => b.1.LeftOf c.1) ∧
    ∀ p x, (p, x) ∈ l ↔ R p x

theorem LeftToRight.congr (h : LeftToRight R xs) (hR : ∀ p x, R p x ↔ R' p x) :
    LeftToRight R' xs := by
  obtain ⟨l, hmap, hpair, hmem⟩ := h
  exact ⟨l, hmap, hpair, fun p x => (hmem p x).trans (hR p x)⟩

/-- What is listed stands somewhere. -/
theorem LeftToRight.mem_iff (h : LeftToRight R xs) {x : α} : x ∈ xs ↔ ∃ p, R p x := by
  obtain ⟨l, rfl, -, hmem⟩ := h
  simp [← hmem]

/-- One thing stands at the top. -/
theorem leftToRight_top (a : α) : LeftToRight (fun p x => p = [] ∧ x = a) [a] :=
  ⟨[([], a)], rfl, List.pairwise_singleton .., by simp⟩

/-- Everything may be moved below one place. -/
theorem LeftToRight.under (h : LeftToRight R xs) (k : Nat) :
    LeftToRight (fun p x => ∃ q, p = k :: q ∧ R q x) xs := by
  obtain ⟨l, rfl, hpair, hmem⟩ := h
  refine ⟨l.map fun b => (k :: b.1, b.2), ?_, ?_, fun p x => ?_⟩
  · rw [List.map_map]
    rfl
  · exact List.pairwise_map.2 (hpair.imp List.Lex.cons)
  · rw [List.mem_map]
    constructor
    · rintro ⟨⟨q, y⟩, hb, heq⟩
      cases heq
      exact ⟨q, rfl, (hmem q y).1 hb⟩
    · rintro ⟨q, rfl, hx⟩
      exact ⟨(q, x), (hmem q x).2 hx, rfl⟩

/-- What stands on the left is listed first. -/
theorem LeftToRight.append (h : LeftToRight R xs) (h' : LeftToRight R' ys)
    (hleft : ∀ p x q y, R p x → R' q y → p.LeftOf q) :
    LeftToRight (fun p x => R p x ∨ R' p x) (xs ++ ys) := by
  obtain ⟨l, rfl, hpair, hmem⟩ := h
  obtain ⟨l', rfl, hpair', hmem'⟩ := h'
  refine ⟨l ++ l', List.map_append, List.pairwise_append.2 ⟨hpair, hpair', ?_⟩, fun p x => ?_⟩
  · rintro ⟨p, x⟩ hb ⟨q, y⟩ hc
    exact hleft p x q y ((hmem p x).1 hb) ((hmem' q y).1 hc)
  · rw [List.mem_append, hmem, hmem']

/-- Leaving out some things leaves the others in their order. -/
theorem LeftToRight.filter (h : LeftToRight R xs) (q : α → Prop) [DecidablePred q] :
    LeftToRight (fun p x => q x ∧ R p x) (xs.filter q) := by
  obtain ⟨l, rfl, hpair, hmem⟩ := h
  refine ⟨l.filter (fun b => q b.2), ?_, hpair.filter _, fun p x => ?_⟩
  · rw [List.filter_map]
    rfl
  · rw [List.mem_filter, hmem, decide_eq_true_iff, and_comm]

/-- **The first of two things listed comes first.** If one thing is listed before another is listed
for the first time, then it stands somewhere to the left of every place of the other. -/
theorem LeftToRight.exists_leftOf {as bs : List α} {x y : α} (h : LeftToRight R (as ++ x :: bs))
    (hy : y ∉ as) (hxy : x ≠ y) : ∃ p, R p x ∧ ∀ q, R q y → p.LeftOf q := by
  obtain ⟨l, hmap, hpair, hmem⟩ := h
  obtain ⟨l₁, l₂, rfl, rfl, hrest⟩ := List.map_eq_append_iff.1 hmap
  obtain ⟨⟨p, _⟩, l₃, rfl, rfl, rfl⟩ := List.map_eq_cons_iff.1 hrest
  refine ⟨p, (hmem p _).1 (by simp), fun q hq => ?_⟩
  -- the place of `y` is neither among those before `x` nor that of `x`
  have hlater : (q, y) ∈ l₃ := by
    have hq := (hmem q y).2 hq
    rw [List.mem_append, List.mem_cons, Prod.mk.injEq] at hq
    rcases hq with hq | ⟨-, rfl⟩ | hq
    · exact absurd (List.mem_map_of_mem hq) hy
    · exact absurd rfl hxy
    · exact hq
  exact (List.pairwise_cons.1 (List.pairwise_append.1 hpair).2.1).1 _ hlater

end LeftToRight

namespace Term

variable {α : Type} {t : Term} {args : List Term}

/-! ### Below the top -/

/-- What `R` says to stand in the arguments stands below the top. -/
def Below (R : Term → Position → α → Prop) (args : List Term) (p : Position) (x : α) : Prop :=
  ∃ i a q, p = i :: q ∧ args[i]? = some a ∧ R a q x

/-- **The arguments are gone through from left to right.** -/
theorem leftToRight_below {R : Term → Position → α → Prop} {f : Term → List α}
    (h : ∀ a ∈ args, LeftToRight (R a) (f a)) : LeftToRight (Below R args) (args.flatMap f) := by
  -- for the induction the places of the arguments may be counted from any number on
  have hfrom : ∀ k, LeftToRight
      (fun p x => ∃ i a q, p = (k + i) :: q ∧ args[i]? = some a ∧ R a q x) (args.flatMap f) := by
    induction args with
    | nil => exact fun k => ⟨[], rfl, .nil, by simp⟩
    | cons a args ih =>
      intro k
      have hfirst := (h a List.mem_cons_self).under k
      have hothers := ih (fun b hb => h b (List.mem_cons_of_mem a hb)) (k + 1)
      refine (hfirst.append hothers ?_).congr fun p x => ?_
      · rintro _ x _ y ⟨p, rfl, -⟩ ⟨i, b, q, rfl, -, -⟩
        exact List.Lex.rel (by omega)
      · constructor
        · rintro (⟨q, rfl, hx⟩ | ⟨i, b, q, rfl, hi, hx⟩)
          · exact ⟨0, a, q, rfl, rfl, hx⟩
          · exact ⟨i + 1, b, q, by rw [Nat.add_assoc, Nat.add_comm 1], hi, hx⟩
        · rintro ⟨_ | i, b, q, rfl, hi, hx⟩
          · cases hi
            exact .inl ⟨q, rfl, hx⟩
          · exact .inr ⟨i, b, q, by rw [Nat.add_assoc, Nat.add_comm 1], hi, hx⟩
  exact (hfrom 0).congr fun p x => by simp only [Nat.zero_add, Below]

/-! ### What stands at a position -/

/-- The position leads from the top of a term to another one that stands in it. All that is gone
through on the way, the goal not included, is as `P` says. -/
inductive LeadsTo (P : Term → Prop) : Term → Position → Term → Prop
  /-- The empty position leads to the term itself. -/
  | here (t : Term) : LeadsTo P t [] t
  /-- Any other position leads on from an argument. -/
  | onward {t a s : Term} {i : Nat} {p : Position} :
    P t → t.args[i]? = some a → LeadsTo P a p s → LeadsTo P t (i :: p) s

theorem leadsTo_iff {P : Term → Prop} {p : Position} {s : Term} :
    t.LeadsTo P p s ↔ p = [] ∧ s = t ∨ P t ∧ Below (LeadsTo P) t.args p s := by
  constructor
  · rintro (_ | ⟨ht, ha, h⟩)
    · exact .inl ⟨rfl, rfl⟩
    · exact .inr ⟨ht, _, _, _, rfl, ha, h⟩
  · rintro (⟨rfl, rfl⟩ | ⟨ht, i, a, q, rfl, ha, h⟩)
    · exact .here s
    · exact .onward ht ha h

/-! ### Free occurrences -/

/-- A variable occurs at a position, and no quantifier around it binds it. -/
def FreeAt (t : Term) (p : Position) (x : Var) : Prop :=
  t.LeadsTo (x ∉ binds ·) p (.var x)

/-- In a variable only that variable occurs, at the top. -/
theorem freeAt_var {x y : Var} {p : Position} : (Term.var y).FreeAt p x ↔ p = [] ∧ x = y := by
  rw [FreeAt, leadsTo_iff]
  simp [Below, Term.args]

/-- In any other term, a variable occurs free where it does so in an argument, unless the top binds
it. -/
theorem freeAt_iff_below (ht : t.isVar = false) {p : Position} {x : Var} :
    t.FreeAt p x ↔ x ∉ t.binds ∧ Below FreeAt t.args p x := by
  have hne : Term.var x ≠ t := fun h => by simp [← h, isVar] at ht
  rw [FreeAt, leadsTo_iff]
  simp only [hne, and_false, false_or]
  rfl

/-- The free occurrences in a term other than a variable are those in its arguments, without those
of variables that the top binds. -/
theorem free_eq_filter (ht : t.isVar = false) :
    t.free = (t.args.flatMap free).filter (· ∉ t.binds) := by
  cases t with
  | var x => simp [isVar] at ht
  | call f args | node op args =>
    rw [List.filter_eq_self.2 (by simp [binds])]
    simp [Term.args]
  | quant q vars body =>
    rw [free_quant, Term.args, List.flatMap_singleton]
    rfl
  | _ => rfl

/-- **The free occurrences are listed from left to right.** -/
theorem leftToRight_free (t : Term) : LeftToRight t.FreeAt t.free := by
  have hstep : ∀ t : Term, t.isVar = false → (∀ a ∈ t.args, LeftToRight a.FreeAt a.free) →
      LeftToRight t.FreeAt t.free := by
    intro t ht hargs
    rw [free_eq_filter ht]
    exact ((leftToRight_below hargs).filter _).congr fun p x => (freeAt_iff_below ht).symm
  induction t using Term.induct with
  | var x => exact (leftToRight_top x).congr fun p y => freeAt_var.symm
  | call f args ih | node op args ih => exact hstep _ rfl ih
  | quant q vars body ih => exact hstep _ rfl fun a ha => List.mem_singleton.1 ha ▸ ih
  | _ => exact hstep _ rfl (by simp [Term.args])

/-- The listed variables are those that occur free somewhere. -/
theorem mem_freeVars_iff_freeAt {x : Var} : x ∈ t.freeVars ↔ ∃ p, t.FreeAt p x :=
  mem_freeVars.trans (leftToRight_free t).mem_iff

/-- What is kept of a list by keeping only what is new: before each member that is kept, the list
has it before it has any member that is kept later. -/
theorem pairwise_foldl_appendNew (xs : List Var) :
    (xs.foldl appendNew []).Pairwise fun x y => ∃ as bs, xs = as ++ x :: bs ∧ y ∉ as ∧ x ≠ y := by
  induction xs using List.reverseRecOn with
  | nil => exact .nil
  | append_singleton xs z ih =>
    rw [List.foldl_append, List.foldl_cons, List.foldl_nil, appendNew]
    have hold := ih.imp (S := fun x y => ∃ as bs, xs ++ [z] = as ++ x :: bs ∧ y ∉ as ∧ x ≠ y)
      (by
        rintro x y ⟨as, bs, rfl, hy, hxy⟩
        exact ⟨as, bs ++ [z], by simp, hy, hxy⟩)
    split
    · exact hold
    · rename_i hz
      have hz : z ∉ xs := by simpa [mem_foldl_appendNew] using hz
      refine List.pairwise_append.2 ⟨hold, List.pairwise_singleton .., fun x hx y hy => ?_⟩
      obtain rfl := List.mem_singleton.1 hy
      have hx : x ∈ xs := by simpa [mem_foldl_appendNew] using hx
      obtain ⟨as, bs, rfl⟩ := List.append_of_mem hx
      rw [List.mem_append, List.mem_cons, not_or, not_or] at hz
      exact ⟨as, bs ++ [y], by simp, hz.1, fun h => hz.2.1 h.symm⟩

/-- **Each free variable is listed where it occurs free for the first time**: to the left of all
free occurrences of the variables that are listed after it. -/
theorem freeAt_pairwise_freeVars (t : Term) :
    t.freeVars.Pairwise fun x y => ∃ p, t.FreeAt p x ∧ ∀ q, t.FreeAt q y → p.LeftOf q := by
  have hfree : t.freeVars = t.free.foldl appendNew [] := by
    rw [freeVars, collectFree_eq, List.filter_eq_self.2 (by simp)]
  rw [hfree]
  refine (pairwise_foldl_appendNew t.free).imp ?_
  rintro x y ⟨as, bs, heq, hy, hxy⟩
  exact (heq ▸ leftToRight_free t).exists_leftOf hy hxy

end Term

end ClauseForm
