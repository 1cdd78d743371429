/-!
# Loops over pending items

A loop may keep what is left to be done as a list of pending items, next to what has come
out so far. A round takes the first item and puts what it leaves to be done in front of
the others, or stops with an error. `ClauseForm.Worklist.Reached` says which items are
pending, and what has come out, after so many rounds.

If what is pending costs less after each round, there are at most as many rounds as the
first items cost (`ClauseForm.Worklist.Reached.add_cost_le`); and if besides no round ends
in an error, nothing is pending in the end (`ClauseForm.Worklist.exists_reached_nil`).
-/

namespace ClauseForm

namespace Worklist

variable {ε τ ρ : Type}

/-- After so many rounds of a loop that starts with these items and this result, so much is pending
and so much has come out. -/
inductive Reached (round : τ → ρ → Except ε (List τ × ρ)) (items : List τ) (result : ρ) :
    Nat → List τ → ρ → Prop
  /-- Before the first round, everything is as given. -/
  | start : Reached round items result 0 items result
  /-- A round works off the first of the pending items. -/
  | step {n : Nat} {item : τ} {pending first : List τ} {out out' : ρ} :
    Reached round items result n (item :: pending) out → round item out = .ok (first, out') →
    Reached round items result (n + 1) (first ++ pending) out'

variable {round : τ → ρ → Except ε (List τ × ρ)} {items pending : List τ} {result out : ρ}
variable {cost : List τ → Nat} {n : Nat}

/-- With what a round leaves, the pending items cost less than before. -/
def Decreases (round : τ → ρ → Except ε (List τ × ρ)) (cost : List τ → Nat) : Prop :=
  ∀ item pending out first out', round item out = .ok (first, out') →
    cost (first ++ pending) < cost (item :: pending)

/-- What is paid for the rounds and what is left to pay for do not exceed the cost of the items at
the start. -/
theorem Reached.add_cost_le (hcost : Decreases round cost)
    (h : Reached round items result n pending out) : n + cost pending ≤ cost items := by
  induction h with
  | start => exact Nat.le_of_eq (Nat.zero_add _)
  | @step _ item pending first out out' _ hround ih =>
    have hless := hcost item pending out first out' hround
    omega

/-- **A loop that never stops with an error works off everything.** -/
theorem exists_reached_nil (items : List τ) (result : ρ) (hcost : Decreases round cost)
    (hround : ∀ n item pending out, Reached round items result n (item :: pending) out →
      ∃ next, round item out = .ok next) :
    ∃ n out, Reached round items result n [] out := by
  -- as long as something is pending there is another round
  have hlong : ∀ n, (∃ k out, Reached round items result k [] out) ∨
      ∃ pending out, Reached round items result n pending out := by
    intro n
    induction n with
    | zero => exact .inr ⟨items, result, .start⟩
    | succ n ih =>
      rcases ih with hend | ⟨_ | ⟨item, pending⟩, out, h⟩
      · exact .inl hend
      · exact .inl ⟨n, out, h⟩
      · obtain ⟨_, hnext⟩ := hround n item pending out h
        exact .inr ⟨_, _, h.step hnext⟩
  rcases hlong (cost items + 1) with hend | ⟨pending, out, h⟩
  · exact hend
  · have hpaid := h.add_cost_le hcost
    omega

end Worklist

end ClauseForm
