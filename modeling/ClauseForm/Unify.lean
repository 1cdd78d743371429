import ClauseForm.Substitution
import ClauseForm.Term.Show

/-!
# Unification

`ClauseForm.Term.unify` finds a substitution under which two terms are equal,
adding as few bindings as it can to a given one; if there is none, it says where
the terms part (`ClauseForm.UnifyError`). Variables are followed through their
bindings before two terms are compared, and a variable is not bound to a term in
which it occurs.

Function symbols at the head of calls are compared by number alone. Quantified
terms unify only if they bind the same variables in the same order, and then
their bodies are unified as if the variables were free.
-/

namespace ClauseForm

/-- Why two terms do not unify. -/
inductive UnifyError where
  /-- The variable would have to be bound to a term that it occurs in. -/
  | occurs (v : Var) (t : Term)
  /-- Two calls have different heads. -/
  | function (f g : FunSym)
  /-- Different operators stand on top. -/
  | operator (op₁ op₂ : Op)
  /-- Argument lists have different lengths. -/
  | arity (m n : Nat)
  /-- Two other terms differ. -/
  | clash (s t : Term)
  /-- The bindings lead a variable back to itself, so that comparing has no end. -/
  | endless
deriving DecidableEq, Repr

namespace UnifyError

/-- The wording of a failure. Symbols are shown by their numbers. -/
def message : UnifyError → Except Fault String
  | occurs v t => do return s!"variable V{v.id} occurs in {← t.text {}}"
  | function f g => .ok s!"function symbol F{f.id} does not match F{g.id}"
  | operator op₁ op₂ => .ok s!"operator {op₁.symbol} does not match {op₂.symbol}"
  | arity m n => .ok s!"arity {m} does not match {n}"
  | clash s t => do
    let shown ← s.text {}
    return s!"{shown} does not unify with {← t.text {}}"
  | endless => .ok "the bindings lead a variable back to itself"

end UnifyError

namespace Term

mutual

/-- How many symbols, constants and operators a term is made of. -/
def size : Term → Nat
  | .call _ args => 1 + sizeAll args
  | .node _ args => 1 + sizeAll args
  | .quant _ _ body => 1 + size body
  | _ => 1

/-- How many symbols, constants and operators several terms are made of. -/
def sizeAll : List Term → Nat
  | [] => 0
  | t :: ts => size t + sizeAll ts

end

/-- Binds a variable to a term it does not occur in. -/
def bindVar (v : Var) (t : Term) (σ : Substitution) : Except UnifyError Substitution :=
  match σ.occurs? v t with
  | some false => .ok (σ.add (.var v) t)
  | some true => .error (.occurs v t)
  | none => .error .endless

/-- Makes terms equal in pairs, from left to right, by `step`. -/
def unifyPairs (step : Term → Term → Substitution → Except UnifyError Substitution) :
    List Term → List Term → Substitution → Except UnifyError Substitution
  | s :: ss, t :: ts, σ =>
    match step s t σ with
    | .ok τ => unifyPairs step ss ts τ
    | .error e => .error e
  | _, _, σ => .ok σ

/-- Makes two argument lists equal by `step`, if they have one length. -/
def unifyArgs (step : Term → Term → Substitution → Except UnifyError Substitution)
    (ss ts : List Term) (σ : Substitution) : Except UnifyError Substitution :=
  if ss.length = ts.length then unifyPairs step ss ts σ else .error (.arity ss.length ts.length)

/-- Makes two terms equal whose bindings have been followed, their parts by `step`. -/
def unifyResolved (step : Term → Term → Substitution → Except UnifyError Substitution)
    (s t : Term) (σ : Substitution) : Except UnifyError Substitution :=
  if s = t then .ok σ
  else
    match s, t with
    | .var v, t => bindVar v t σ
    | s, .var v => bindVar v s σ
    | .call f ss, .call g ts =>
      if f.id = g.id then unifyArgs step ss ts σ else .error (.function f g)
    | .node op₁ ss, .node op₂ ts =>
      if op₁ = op₂ then unifyArgs step ss ts σ else .error (.operator op₁ op₂)
    | .quant q us b, .quant r vs c =>
      if q = r ∧ us = vs then step b c σ else .error (.clash (.quant q us b) (.quant r vs c))
    | s, t => .error (.clash s t)

/-- Makes two terms equal, going at most `depth` levels into them. -/
def unifyWithin : Nat → Term → Term → Substitution → Except UnifyError Substitution
  | 0, _, _, _ => .error .endless
  | depth + 1, s, t, σ =>
    match σ.resolve? s, σ.resolve? t with
    | some s, some t => unifyResolved (unifyWithin depth) s t σ
    | _, _ => .error .endless

/-- How many levels deep unification may go. A level is told by the two terms compared there, which
are parts of the terms given or of those bound, and by the bindings made so far, of which there
cannot be more than parts; deeper than this, some level would have to repeat. -/
def unifyDepth (s t : Term) (σ : Substitution) : Nat :=
  Nat.pow (s.size + t.size + sizeAll σ.values + 1) 3

/-- A depth that is tried before `unifyDepth`, whose count of parts looks at every occurrence of
every part: many terms are compared in less time than it takes to count them. -/
def shallowDepth : Nat :=
  65536

/-- The given substitution with the bindings added, if there are any, that make two terms equal. -/
def unify (s t : Term) (σ : Substitution) : Except UnifyError Substitution :=
  match unifyWithin shallowDepth s t σ with
  | .error .endless => unifyWithin (unifyDepth s t σ) s t σ
  | result => result

/-! ### More depth changes no answer -/

/-- If `next` answers like `step` wherever that comes to an end, so do the two for lists. -/
theorem unifyPairs_congr {step next : Term → Term → Substitution → Except UnifyError Substitution}
    (agree : ∀ s t σ, step s t σ ≠ .error .endless → next s t σ = step s t σ) (ss ts : List Term)
    (σ : Substitution) (h : unifyPairs step ss ts σ ≠ .error .endless) :
    unifyPairs next ss ts σ = unifyPairs step ss ts σ := by
  induction ss generalizing ts σ with
  | nil => simp [unifyPairs]
  | cons s ss ih =>
    cases ts with
    | nil => simp [unifyPairs]
    | cons t ts =>
      have hst : step s t σ ≠ .error .endless := fun e => h (by simp [unifyPairs, e])
      simp only [unifyPairs, agree s t σ hst] at h ⊢
      split at h
      · exact ih _ _ h
      · rfl

/-- If `next` answers like `step` wherever that comes to an end, so do the two for terms whose
bindings have been followed. -/
theorem unifyResolved_congr
    {step next : Term → Term → Substitution → Except UnifyError Substitution}
    (agree : ∀ s t σ, step s t σ ≠ .error .endless → next s t σ = step s t σ) (s t : Term)
    (σ : Substitution) (h : unifyResolved step s t σ ≠ .error .endless) :
    unifyResolved next s t σ = unifyResolved step s t σ := by
  have lists : ∀ ss ts, unifyArgs step ss ts σ ≠ .error .endless →
      unifyArgs next ss ts σ = unifyArgs step ss ts σ := by
    intro ss ts h
    unfold unifyArgs at h ⊢
    split
    · rename_i hl
      exact unifyPairs_congr agree ss ts σ (by simpa [hl] using h)
    · rfl
  unfold unifyResolved at h ⊢
  by_cases hst : s = t
  · simp [hst]
  · simp only [hst, if_false] at h ⊢
    split <;> try rfl
    all_goals
      simp only at h
      split <;> simp_all

/-- What one depth is enough to find out, every greater depth finds out too. -/
theorem unifyWithin_mono {m n : Nat} (hmn : m ≤ n) {s t : Term} {σ : Substitution}
    (h : unifyWithin m s t σ ≠ .error .endless) : unifyWithin n s t σ = unifyWithin m s t σ := by
  induction m generalizing n s t σ with
  | zero => simp [unifyWithin] at h
  | succ m ih =>
    obtain ⟨n, rfl⟩ : ∃ k, n = k + 1 := ⟨n - 1, by omega⟩
    simp only [unifyWithin] at h ⊢
    split
    · exact unifyResolved_congr (fun s t σ h => ih (by omega) h) _ _ _ (by simp_all)
    · rfl

/-- Trying the shallow depth first only saves time. -/
theorem unify_eq (s t : Term) (σ : Substitution) :
    s.unify t σ = unifyWithin (max shallowDepth (unifyDepth s t σ)) s t σ := by
  unfold unify
  split
  · rename_i h
    by_cases hd : unifyDepth s t σ ≤ shallowDepth
    · rw [Nat.max_eq_left hd, h]
      by_cases he : unifyWithin (unifyDepth s t σ) s t σ = .error .endless
      · exact he
      · rw [← unifyWithin_mono hd he, h]
    · rw [Nat.max_eq_right (by omega)]
  · rename_i h
    exact (unifyWithin_mono (Nat.le_max_left ..) h).symm

end Term

end ClauseForm
