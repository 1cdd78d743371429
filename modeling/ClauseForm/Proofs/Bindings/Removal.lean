import ClauseForm.Bindings

/-!
# Taking the bindings of a key away

Removing a key (`ClauseForm.Bindings.remove`) takes all of its bindings out of the chain and
leaves the others in their order (`ClauseForm.Bindings.chain_remove`), though only what is newer
than the oldest of them is built anew. So the key is unbound afterwards, and every other key is
bound to what it was bound to (`ClauseForm.Bindings.get?_remove`).
-/

namespace ClauseForm

namespace Bindings

variable {κ ν : Type}

/-- Bindings that are added one after the other stand in front, the last one first. -/
theorem chain_foldl_add (pairs : List (κ × ν)) (b : Bindings κ ν) :
    (pairs.foldl (fun b p => b.add p.1 p.2) b).chain = pairs.reverse ++ b.chain := by
  induction pairs generalizing b with
  | nil => rfl
  | cons p pairs ih =>
    rw [List.foldl_cons, ih, add]
    simp

variable [DecidableEq κ]

/-- **Parting a chain loses nothing but the bindings of the key.** The walk has met `recent` since
the last of them, so that the chain behind that one begins with `recent`. -/
theorem partAt_append {key : κ} {recent kept rest chain : List (κ × ν)}
    (hrest : rest = recent.reverse ++ chain) (hrecent : ∀ p ∈ recent, p.1 ≠ key) :
    (partAt key recent kept rest chain).1.reverse ++ (partAt key recent kept rest chain).2 =
      kept.reverse ++ (recent.reverse ++ chain.filter (·.1 ≠ key)) := by
  induction chain generalizing recent kept rest with
  | nil => simp [partAt, hrest]
  | cons p chain ih =>
    rw [partAt]
    split
    · rename_i hkey
      have hnothing : ∀ q ∈ ([] : List (κ × ν)), q.1 ≠ key := by simp
      rw [ih (by simp) hnothing, List.filter_cons_of_neg (by simpa using hkey)]
      simp
    · rename_i hkey
      have hmore : ∀ q ∈ p :: recent, q.1 ≠ key := List.forall_mem_cons.2 ⟨hkey, hrecent⟩
      rw [ih (by simp [hrest]) hmore, List.filter_cons_of_pos (by simpa using hkey)]
      simp

/-- A key that is not bound has no binding in the chain. -/
theorem forall_chain_of_not_contains {b : Bindings κ ν} {key : κ} (h : ¬b.contains key = true) :
    ∀ p ∈ b.chain, p.1 ≠ key := by
  have hnone : b.chain.lookup key = none := by
    rw [contains, get?] at h
    exact Option.not_isSome_iff_eq_none.1 h
  intro p hp hkey
  simpa [hkey] using List.lookup_eq_none_iff.1 hnone p hp

/-- **What is left of the chain when a key is removed**: all that is bound to other keys. -/
theorem chain_remove (b : Bindings κ ν) (key : κ) :
    (b.remove key).chain = b.chain.filter (·.1 ≠ key) := by
  unfold remove
  split
  · have hparts : (partAt key [] [] b.chain b.chain).1.reverse ++
        (partAt key [] [] b.chain b.chain).2 = _ := partAt_append rfl (by simp)
    simpa [chain_foldl_add] using hparts
  · rename_i hunbound
    have hkept := forall_chain_of_not_contains hunbound
    exact (List.filter_eq_self.2 fun p hp => by simpa using hkept p hp).symm

/-- **Removing a key takes its binding away and no other one.** -/
theorem get?_remove (b : Bindings κ ν) (key other : κ) :
    (b.remove key).get? other = if other = key then none else b.get? other := by
  rw [get?, get?, chain_remove]
  induction b.chain with
  | nil => simp
  | cons p chain ih =>
    by_cases hkey : p.1 = key
    · rw [List.filter_cons_of_neg (by simpa using hkey), ih]
      split
      · rfl
      · rename_i hother
        rw [List.lookup_cons, beq_eq_false_iff_ne.2 (hkey ▸ hother)]
    · rw [List.filter_cons_of_pos (by simpa using hkey), List.lookup_cons, List.lookup_cons, ih]
      split
      · rename_i hbeq
        rw [if_neg (eq_of_beq hbeq ▸ hkey)]
      · rfl

end Bindings

end ClauseForm
