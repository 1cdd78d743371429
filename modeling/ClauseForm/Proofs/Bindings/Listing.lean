import ClauseForm.Proofs.Bindings.Removal

/-!
# Bindings and the list of their pairs

Every operation on bindings is an operation on their listing: adding a binding puts a pair at
the end, removing a key takes out the pairs of this key, and the bindings of a list have
this list as their listing. So bindings that operations lead to list what the same
operations on a plain list lead to (`ClauseForm.Bindings.Lists`), and what can be asked of
them is told by the listing (`ClauseForm.Bindings.Lists.faithful`): the size that is
kept beside the chain is its length, and the value of a key is that of its last pair.

Removing a key decides by a look-up whether there is anything to do. The walk along the chain
would tell as well: it leaves the whole chain behind exactly if it has not met the key
(`ClauseForm.Bindings.remove_eq_partAt`).
-/

namespace ClauseForm

namespace Bindings

variable {κ ν : Type} {b : Bindings κ ν} {pairs : List (κ × ν)}

/-! ### The size -/

/-- The size that is kept is the length of the chain. -/
def Sized (b : Bindings κ ν) : Prop :=
  b.size = b.chain.length

theorem sized_mk (chain : List (κ × ν)) : Sized ⟨chain, chain.length⟩ := rfl

theorem Sized.add (h : b.Sized) (key : κ) (value : ν) : (b.add key value).Sized :=
  congrArg (· + 1) h

theorem Sized.foldl_add (h : b.Sized) (pairs : List (κ × ν)) :
    (pairs.foldl (fun b p => b.add p.1 p.2) b).Sized := by
  induction pairs generalizing b with
  | nil => exact h
  | cons p pairs ih => exact ih (h.add p.1 p.2)

theorem sized_ofList (pairs : List (κ × ν)) : (ofList pairs).Sized :=
  (sized_mk []).foldl_add pairs

theorem length_toList (b : Bindings κ ν) : b.toList.length = b.chain.length :=
  List.length_reverse

theorem Sized.isEmpty_iff (h : b.Sized) : b.isEmpty = true ↔ b.size = 0 := by
  rw [h, isEmpty, List.isEmpty_iff, List.length_eq_zero_iff]

/-! ### The listing -/

theorem toList_ofList (pairs : List (κ × ν)) : (ofList pairs).toList = pairs := by
  rw [toList, ofList, chain_foldl_add, List.reverse_append, List.reverse_reverse]
  rfl

variable [DecidableEq κ]

theorem Sized.remove (h : b.Sized) (key : κ) : (b.remove key).Sized := by
  unfold Bindings.remove
  split
  · exact (sized_mk _).foldl_add _
  · exact h

theorem toList_remove (b : Bindings κ ν) (key : κ) :
    (b.remove key).toList = b.toList.filter (·.1 ≠ key) := by
  rw [toList, toList, chain_remove, List.filter_reverse]

/-- The bindings of one key are all there after another one is removed, hidden ones included. -/
theorem filter_toList_remove {key other : κ} (h : other ≠ key) (b : Bindings κ ν) :
    (b.remove key).toList.filter (·.1 = other) = b.toList.filter (·.1 = other) := by
  rw [toList_remove, List.filter_filter]
  refine List.filter_congr fun p _ => ?_
  by_cases hp : p.1 = other
  · simp [hp, h]
  · simp [hp]

/-- Looking a key up finds the first of its pairs. -/
theorem lookup_eq_head? (key : κ) (pairs : List (κ × ν)) :
    pairs.lookup key = (pairs.filter (·.1 = key)).head?.map Prod.snd := by
  induction pairs with
  | nil => rfl
  | cons p pairs ih =>
    rw [List.lookup_cons]
    by_cases hkey : p.1 = key
    · rw [List.filter_cons_of_pos (by simpa using hkey), beq_iff_eq.2 hkey.symm]
      rfl
    · rw [List.filter_cons_of_neg (by simpa using hkey), beq_eq_false_iff_ne.2 (Ne.symm hkey)]
      exact ih

/-- **A key has the value of its last pair.** -/
theorem get?_eq_getLast? (b : Bindings κ ν) (key : κ) :
    b.get? key = (b.toList.filter (·.1 = key)).getLast?.map Prod.snd := by
  rw [get?, lookup_eq_head?, toList, List.filter_reverse, List.getLast?_reverse]

theorem contains_iff (b : Bindings κ ν) (key : κ) :
    b.contains key = true ↔ ∃ p ∈ b.toList, p.1 = key := by
  rw [contains, get?_eq_getLast?, Option.isSome_map, List.getLast?_isSome, ne_eq,
    List.filter_eq_nil_iff]
  simp

/-! ### What the walk leaves behind -/

/-- The walk leaves behind what it carried if it does not meet the key, and else less than the
chain it is to walk. -/
theorem partAt_snd_cases (key : κ) (recent kept rest chain : List (κ × ν)) :
    (∀ p ∈ chain, p.1 ≠ key) ∧ (partAt key recent kept rest chain).2 = rest ∨
      (∃ p ∈ chain, p.1 = key) ∧
        (partAt key recent kept rest chain).2.length < chain.length := by
  induction chain generalizing recent kept rest with
  | nil => exact Or.inl ⟨by simp, rfl⟩
  | cons p chain ih =>
    rw [partAt]
    split
    · -- the walk goes on with what is behind the pair, which is shorter
      rename_i hkey
      refine Or.inr ⟨⟨p, List.mem_cons_self, hkey⟩, ?_⟩
      rcases ih [] (recent ++ kept) chain with ⟨-, hrest⟩ | ⟨-, hlength⟩
      · rw [hrest]
        exact Nat.lt_succ_self _
      · exact Nat.lt_succ_of_lt hlength
    · rename_i hkey
      rcases ih (p :: recent) kept rest with ⟨hnone, hrest⟩ | ⟨⟨q, hq, hmeet⟩, hlength⟩
      · exact Or.inl ⟨List.forall_mem_cons.2 ⟨hkey, hnone⟩, hrest⟩
      · exact Or.inr ⟨⟨q, List.mem_cons_of_mem p hq, hmeet⟩, Nat.lt_succ_of_lt hlength⟩

/-- **The walk alone tells whether a key is bound**: if so, it leaves less than the whole chain
behind. -/
theorem remove_eq_partAt (b : Bindings κ ν) (key : κ) :
    b.remove key =
      if (partAt key [] [] b.chain b.chain).2.length = b.chain.length then b
      else (partAt key [] [] b.chain b.chain).1.foldl (fun b p => b.add p.1 p.2)
        ⟨(partAt key [] [] b.chain b.chain).2, (partAt key [] [] b.chain b.chain).2.length⟩ := by
  have hcontains : b.contains key = true ↔ ∃ p ∈ b.chain, p.1 = key := by
    rw [contains_iff, toList]
    simp only [List.mem_reverse]
  unfold remove
  rcases partAt_snd_cases key [] [] b.chain b.chain with ⟨hnone, hrest⟩ | ⟨hmeet, hlength⟩
  · rw [if_pos (congrArg List.length hrest), if_neg fun h => ?_]
    obtain ⟨p, hp, hkey⟩ := hcontains.1 h
    exact hnone p hp hkey
  · rw [if_pos (hcontains.2 hmeet), if_neg (Nat.ne_of_lt hlength)]

/-! ### Sequences of operations -/

/-- Bindings that operations lead to, with what the same operations on a list of pairs lead to. -/
inductive Lists : Bindings κ ν → List (κ × ν) → Prop
  /-- There is nothing yet. -/
  | empty : Lists .empty []
  /-- A binding is added. -/
  | add {b : Bindings κ ν} {pairs : List (κ × ν)} (key : κ) (value : ν) :
    Lists b pairs → Lists (b.add key value) (pairs ++ [(key, value)])
  /-- A key is removed. -/
  | remove {b : Bindings κ ν} {pairs : List (κ × ν)} (key : κ) :
    Lists b pairs → Lists (b.remove key) (pairs.filter (·.1 ≠ key))
  /-- The bindings are those of a list. -/
  | ofList (pairs : List (κ × ν)) : Lists (ofList pairs) pairs

theorem Lists.toList_eq (h : b.Lists pairs) : b.toList = pairs := by
  induction h with
  | empty => rfl
  | add key value _ ih => rw [toList_add, ih]
  | remove key _ ih => rw [toList_remove, ih]
  | ofList pairs => exact toList_ofList pairs

theorem Lists.sized (h : b.Lists pairs) : b.Sized := by
  induction h with
  | empty => rfl
  | add key value _ ih => exact ih.add key value
  | remove key _ ih => exact ih.remove key
  | ofList pairs => exact sized_ofList pairs

/-- **Bindings are a list of pairs**, whatever operations lead to them: the list that the same
operations lead to. Their size is its length, a key is bound if it has a pair, and to the value of
the last one. Removing a key takes out its pairs, and leaves all others in their order, and every
other key bound to what it was bound to, openly or hidden. -/
theorem Lists.faithful (h : b.Lists pairs) (key : κ) :
    b.toList = pairs ∧ b.size = b.toList.length ∧ (b.isEmpty = true ↔ b.size = 0) ∧
      b.get? key = (b.toList.filter (·.1 = key)).getLast?.map Prod.snd ∧
      (b.contains key = true ↔ ∃ p ∈ b.toList, p.1 = key) ∧
      (b.remove key).toList = b.toList.filter (·.1 ≠ key) ∧
      ∀ other, other ≠ key → (b.remove key).get? other = b.get? other ∧
        (b.remove key).toList.filter (·.1 = other) = b.toList.filter (·.1 = other) := by
  have hsize : b.size = b.toList.length := by rw [length_toList]; exact h.sized
  refine ⟨h.toList_eq, hsize, h.sized.isEmpty_iff, get?_eq_getLast? b key, contains_iff b key,
    toList_remove b key, fun other hother => ⟨?_, filter_toList_remove hother b⟩⟩
  rw [get?_remove, if_neg hother]

/-- Bindings of three keys, one of which is bound at the newest end, at the oldest, and between. -/
def interleavedExample : Bindings Char Nat :=
  ((ofList [('x', 0), ('a', 1), ('x', 2), ('a', 3)]).add 'z' 4).add 'x' 5

theorem Lists.faithful_interleavedExample :
    interleavedExample.Lists
        [('x', 0), ('a', 1), ('x', 2), ('a', 3), ('z', 4), ('x', 5)] ∧
      interleavedExample.size = 6 ∧ interleavedExample.get? 'x' = some 5 ∧
      (interleavedExample.remove 'x').toList = [('a', 1), ('a', 3), ('z', 4)] ∧
      (interleavedExample.remove 'x').get? 'a' = interleavedExample.get? 'a' := by
  have h : interleavedExample.Lists
      [('x', 0), ('a', 1), ('x', 2), ('a', 3), ('z', 4), ('x', 5)] :=
    .add 'x' 5 (.add 'z' 4 (.ofList [('x', 0), ('a', 1), ('x', 2), ('a', 3)]))
  obtain ⟨hlist, hsize, -, hget, -, hremove, hother⟩ := Lists.faithful h 'x'
  rw [hlist] at hsize hget hremove
  exact ⟨h, hsize, hget.trans (by decide), hremove.trans (by decide),
    (hother 'a' (by decide)).1⟩

end Bindings

end ClauseForm
