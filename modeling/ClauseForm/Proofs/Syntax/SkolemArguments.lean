import ClauseForm.Proofs.Syntax.Parts

/-!
# The arguments of Skolem functions

A Skolem function takes the place of an existentially bound variable, and its arguments are
the fresh variables that take the places of the universally bound ones around it.
`ClauseForm.Term.skolemArgs` reads them off a term, one list for each existentially bound
variable: the fresh variables are numbered in the order in which the universal quantifiers
bind them, so that each list is in ascending order
(`ClauseForm.Term.ascending_skolemArgs`), outermost first.
-/

namespace ClauseForm

/-! ### Fresh variables -/

/-- So many variables, numbered on from the first one. -/
def freshVars (next count : Nat) : List Var :=
  (List.range' next count).map Var.mk

theorem freshVars_succ (next count : Nat) :
    freshVars next (count + 1) = ⟨next⟩ :: freshVars (next + 1) count := by
  simp [freshVars, List.range'_succ]

theorem mem_freshVars {next count : Nat} {x : Var} :
    x ∈ freshVars next count ↔ next ≤ x.id ∧ x.id < next + count := by
  rw [freshVars, List.mem_map]
  constructor
  · rintro ⟨i, hi, rfl⟩
    exact List.mem_range'_1.1 hi
  · exact fun h => ⟨x.id, List.mem_range'_1.2 h, rfl⟩

namespace Term

mutual

/-- The number of variables that the universal quantifiers of a term bind. -/
def universalCount : Term → Nat
  | .call _ args => universalCountAll args
  | .node _ args => universalCountAll args
  | .quant .all xs body => xs.length + universalCount body
  | .quant .exist _ body => universalCount body
  | _ => 0

/-- The number of variables that the universal quantifiers of several terms bind. -/
def universalCountAll : List Term → Nat
  | [] => 0
  | t :: ts => universalCount t + universalCountAll ts

end

mutual

/-- For each existentially bound variable of a term, from left to right, the fresh variables of the
universal quantifiers around it, outermost first. Those around the whole term are given; the others
are numbered from `next` on, in the order in which they are bound. -/
def skolemArgs (around : List Var) (next : Nat) : Term → List (List Var)
  | .call _ args => skolemArgsAll around next args
  | .node _ args => skolemArgsAll around next args
  | .quant .all xs body =>
    skolemArgs (around ++ freshVars next xs.length) (next + xs.length) body
  | .quant .exist xs body => List.replicate xs.length around ++ skolemArgs around next body
  | _ => []

/-- The same for the existentially bound variables of several terms. -/
def skolemArgsAll (around : List Var) (next : Nat) : List Term → List (List Var)
  | [] => []
  | t :: ts => skolemArgs around next t ++ skolemArgsAll around (next + universalCount t) ts

end

end Term

/-- The variables are numbered from `first` on, up to `next`, in ascending order. -/
structure Ascending (first next : Nat) (xs : List Var) : Prop where
  lt : xs.Pairwise (·.id < ·.id)
  range : ∀ x ∈ xs, first ≤ x.id ∧ x.id < next

namespace Ascending

variable {first next : Nat} {xs : List Var}

theorem nodup (h : Ascending first next xs) : xs.Nodup := by
  refine h.lt.imp ?_
  rintro x y hlt rfl
  exact Nat.lt_irrefl _ hlt

theorem mono {next' : Nat} (h : Ascending first next xs) (hle : next ≤ next') :
    Ascending first next' xs :=
  ⟨h.lt, fun x hx => ⟨(h.range x hx).1, Nat.lt_of_lt_of_le (h.range x hx).2 hle⟩⟩

theorem append_freshVars (h : Ascending first next xs) (hle : first ≤ next) (count : Nat) :
    Ascending first (next + count) (xs ++ freshVars next count) := by
  refine ⟨List.pairwise_append.2 ⟨h.lt, ?_, fun x hx y hy => ?_⟩, fun x hx => ?_⟩
  · exact List.pairwise_map.2 List.pairwise_lt_range'
  · exact Nat.lt_of_lt_of_le (h.range x hx).2 (mem_freshVars.1 hy).1
  · rcases List.mem_append.1 hx with hx | hx
    · exact (h.mono (Nat.le_add_right next count)).range x hx
    · exact ⟨Nat.le_trans hle (mem_freshVars.1 hx).1, (mem_freshVars.1 hx).2⟩

end Ascending

namespace Term

/-- **The arguments read off a formula are in ascending order**, so that none stands twice. -/
theorem ascending_skolemArgs {first next : Nat} {around : List Var} {t : Term}
    (h : Ascending first next around) (hle : first ≤ next) :
    ∀ xs ∈ t.skolemArgs around next, Ascending first (next + t.universalCount) xs := by
  have hall : ∀ {ts : List Term} {around : List Var} {next : Nat}, (∀ a ∈ ts, ∀ {next},
      Ascending first next around → first ≤ next → ∀ xs ∈ a.skolemArgs around next,
        Ascending first (next + a.universalCount) xs) → Ascending first next around →
      first ≤ next → ∀ xs ∈ skolemArgsAll around next ts,
        Ascending first (next + universalCountAll ts) xs := by
    intro ts around next hts h hle
    induction ts generalizing next with
    | nil => simp [skolemArgsAll]
    | cons t ts ih =>
      rw [List.forall_mem_cons] at hts
      rw [skolemArgsAll, universalCountAll, List.forall_mem_append, ← Nat.add_assoc]
      have hnext := Nat.le_add_right next t.universalCount
      refine ⟨fun xs hxs => (hts.1 h hle xs hxs).mono (Nat.le_add_right _ _), ?_⟩
      exact ih hts.2 (h.mono hnext) (Nat.le_trans hle hnext)
  induction t using Term.induct generalizing around next with
  | call f args ih | node op args ih =>
    rw [skolemArgs, universalCount]
    exact hall (fun a ha _ h hle => ih a ha h hle) h hle
  | quant q xs body ih =>
    cases q with
    | all =>
      rw [skolemArgs, universalCount, ← Nat.add_assoc]
      exact ih (h.append_freshVars hle xs.length) (Nat.le_trans hle (Nat.le_add_right _ _))
    | exist =>
      rw [skolemArgs, universalCount, List.forall_mem_append]
      refine ⟨fun ys hys => ?_, ih h hle⟩
      rw [List.eq_of_mem_replicate hys]
      exact h.mono (Nat.le_add_right _ _)
  | _ => simp [skolemArgs]

end Term

end ClauseForm
