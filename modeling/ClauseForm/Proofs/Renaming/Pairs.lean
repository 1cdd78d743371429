import Mathlib.Data.Set.Card
import ClauseForm.Proofs.Substitution.Acyclic
import ClauseForm.Proofs.Syntax.Symbols

/-!
# The pairs of a renaming

A renaming is *coherent* (`ClauseForm.Renaming.Coherent`) if its two directions are inverse
to each other, it pairs symbols of one sort, and it holds every pair once. Pairing two
more symbols keeps that, and adds exactly this pair
(`ClauseForm.Renaming.Coherent.pair`). It succeeds if some injective map
(`ClauseForm.Renaming.IsMatching`) has all the pairs
(`ClauseForm.Renaming.IsMatching.exists_pair`).

What is true of one pair is true of a list of them, paired one after the other
(`ClauseForm.Renaming.pairAll`).
-/

namespace ClauseForm

/-- Where every key is bound once, a key has the value that it is bound to. -/
theorem Bindings.get?_eq_some_iff {κ ν : Type} [DecidableEq κ] {b : Bindings κ ν}
    (hkeys : (b.chain.map Prod.fst).Nodup) {key : κ} {value : ν} :
    b.get? key = some value ↔ (key, value) ∈ b.chain := by
  refine ⟨mem_of_get?, fun h => ?_⟩
  rw [get?]
  generalize b.chain = chain at hkeys h
  induction chain with
  | nil => simp at h
  | cons p chain ih =>
    rw [List.map_cons, List.nodup_cons] at hkeys
    rcases List.mem_cons.1 h with rfl | h
    · simp
    · have hne : key ≠ p.1 := by
        rintro rfl
        exact hkeys.1 (List.mem_map.2 ⟨_, h, rfl⟩)
      rw [List.lookup_cons, beq_eq_false_iff_ne.2 hne]
      exact ih hkeys.2 h

namespace Renaming

variable {r r' : Renaming} {s u : Symbol}

/-! ### Coherent renamings -/

/-- The two directions are inverse to each other, variables are paired with variables, and every
pair is there once. -/
structure Coherent (r : Renaming) : Prop where
  inverse : ∀ {s u}, r.forward.get? s = some u ↔ r.backward.get? u = some s
  sort : ∀ {s u}, r.image? s = some u → u.isVar = s.isVar
  keys : (r.forward.chain.map Prod.fst).Nodup
  length : r.size = r.forward.chain.length

/-- Nothing is paired in the beginning. -/
theorem coherent_empty : Coherent {} := by
  refine ⟨?_, ?_, ?_, rfl⟩ <;> simp [image?, Bindings.empty, Bindings.get?]

/-- The size of a renaming is the number of its pairs. -/
theorem Coherent.encard_eq (h : r.Coherent) :
    {p : Symbol × Symbol | r.image? p.1 = some p.2}.encard = r.size := by
  have hset : {p : Symbol × Symbol | r.image? p.1 = some p.2} = r.forward.chain.toFinset := by
    ext ⟨x, y⟩
    rw [Set.mem_ofPred_eq, image?, Bindings.get?_eq_some_iff h.keys]
    simp
  rw [hset, Set.encard_coe_eq_coe_finsetCard, List.toFinset_card_of_nodup h.keys.of_map, h.length]

/-! ### One more pair -/

/-- Two symbols are paired if neither of them was, or if they were paired with each other. -/
theorem pair_cases (h : r.pair s u = some r') :
    (r.forward.get? s = none ∧ r.backward.get? u = none ∧
      r' = ⟨r.forward.add s u, r.backward.add u s⟩) ∨ (r.image? s = some u ∧ r' = r) := by
  unfold pair at h
  split at h
  · rename_i hs hu
    exact Or.inl ⟨hs, hu, (Option.some.inj h).symm⟩
  · rename_i image preimage hs hu
    split at h
    · rename_i heq
      exact Or.inr ⟨heq.1 ▸ hs, (Option.some.inj h).symm⟩
    · cases h
  · cases h

/-- A new binding is the only one of its key. -/
theorem get?_add_eq_some_iff {b : Bindings Symbol Symbol} (hb : b.get? s = none) {x y : Symbol} :
    (b.add s u).get? x = some y ↔ (x = s ∧ y = u) ∨ b.get? x = some y := by
  by_cases hx : x = s
  · subst hx
    rw [Bindings.get?_add_self, hb]
    simp [eq_comm]
  · rw [Bindings.get?_add_of_ne hx]
    simp [hx]

/-- **Pairing two symbols adds this pair and nothing else.** -/
theorem Coherent.pair (h : r.Coherent) (hsort : u.isVar = s.isVar) (hrun : r.pair s u = some r') :
    r'.Coherent ∧ ∀ x y, r'.image? x = some y ↔ (x = s ∧ y = u) ∨ r.image? x = some y := by
  rcases pair_cases hrun with ⟨hs, hu, rfl⟩ | ⟨hs, rfl⟩
  · refine ⟨⟨fun {x y} => ?_, fun {x y} hxy => ?_, ?_, ?_⟩, fun x y => get?_add_eq_some_iff hs⟩
    · rw [get?_add_eq_some_iff hs, get?_add_eq_some_iff hu, h.inverse]
      simp [and_comm]
    · rcases (get?_add_eq_some_iff hs).1 hxy with ⟨rfl, rfl⟩ | hxy
      · exact hsort
      · exact h.sort hxy
    · rw [Bindings.add, List.map_cons, List.nodup_cons]
      refine ⟨fun hmem => ?_, h.keys⟩
      obtain ⟨⟨x, y⟩, hxy, rfl⟩ := List.mem_map.1 hmem
      rw [(Bindings.get?_eq_some_iff h.keys).2 hxy] at hs
      cases hs
    · exact congrArg (· + 1) h.length
  · refine ⟨h, fun x y => ⟨Or.inr, ?_⟩⟩
    rintro (⟨rfl, rfl⟩ | hxy)
    · exact hs
    · exact hxy

/-! ### Maps that have all the pairs -/

/-- An injective map of some symbols, which takes variables to variables and function symbols to
function symbols. -/
structure IsMatching (m : Symbol → Option Symbol) : Prop where
  injective : ∀ {s t u}, m s = some u → m t = some u → s = t
  sort : ∀ {s u}, m s = some u → u.isVar = s.isVar

/-- The map has all the pairs of the renaming. -/
def ExtendedBy (r : Renaming) (m : Symbol → Option Symbol) : Prop :=
  ∀ s u, r.image? s = some u → m s = some u

/-- The pairs of a coherent renaming are such a map. -/
theorem Coherent.isMatching (h : r.Coherent) : IsMatching r.image? where
  injective hs ht := by
    rw [image?, h.inverse] at hs ht
    exact Option.some.inj (hs.symm.trans ht)
  sort := h.sort

/-- **What a map pairs can be paired**, if the map has all the pairs that are there. -/
theorem IsMatching.exists_pair {m : Symbol → Option Symbol} (hm : IsMatching m) (h : r.Coherent)
    (hr : r.ExtendedBy m) (hsu : m s = some u) : ∃ r', r.pair s u = some r' := by
  unfold Renaming.pair
  split
  · exact ⟨_, rfl⟩
  · rename_i image preimage hs hu
    have himage : image = u := Option.some.inj ((hr s image hs).symm.trans hsu)
    have hpreimage : preimage = s := hm.injective (hr preimage u (h.inverse.2 hu)) hsu
    exact ⟨r, if_pos ⟨himage, hpreimage⟩⟩
  · rename_i hnone hboth
    -- if one of the two was paired, then with the other one
    cases hs : r.forward.get? s with
    | some image =>
      obtain rfl : image = u := Option.some.inj ((hr s image hs).symm.trans hsu)
      exact absurd (h.inverse.1 hs) (hboth _ _ hs)
    | none =>
      cases hu : r.backward.get? u with
      | none => exact absurd hu (hnone hs)
      | some preimage =>
        have hpre := h.inverse.2 hu
        rw [hm.injective (hr preimage u hpre) hsu, hs] at hpre
        cases hpre

/-! ### Lists of pairs -/

/-- The renaming with the symbols of several pairs paired one after the other. -/
def pairAll (r : Renaming) (ps : List (Symbol × Symbol)) : Option Renaming :=
  ps.foldlM (fun r p => r.pair p.1 p.2) r

variable {ps : List (Symbol × Symbol)}

theorem pairAll_cons (r : Renaming) (p : Symbol × Symbol) (ps : List (Symbol × Symbol)) :
    r.pairAll (p :: ps) = (r.pair p.1 p.2).bind (·.pairAll ps) := by
  rw [pairAll, List.foldlM_cons]
  rfl

theorem pairAll_append (r : Renaming) (ps qs : List (Symbol × Symbol)) :
    r.pairAll (ps ++ qs) = (r.pairAll ps).bind (·.pairAll qs) := by
  rw [pairAll, List.foldlM_append]
  rfl

/-- **Pairing the symbols of a list adds its pairs and nothing else.** -/
theorem Coherent.pairAll (h : r.Coherent) (hsort : ∀ p ∈ ps, p.2.isVar = p.1.isVar)
    (hrun : r.pairAll ps = some r') :
    r'.Coherent ∧ ∀ x y, r'.image? x = some y ↔ (x, y) ∈ ps ∨ r.image? x = some y := by
  induction ps generalizing r with
  | nil =>
    obtain rfl : r = r' := Option.some.inj hrun
    exact ⟨h, by simp⟩
  | cons p ps ih =>
    rw [List.forall_mem_cons] at hsort
    rw [pairAll_cons] at hrun
    obtain ⟨r₁, hfirst, hrest⟩ := Option.bind_eq_some_iff.1 hrun
    obtain ⟨h₁, himage⟩ := h.pair hsort.1 hfirst
    obtain ⟨h', himage'⟩ := ih h₁ hsort.2 hrest
    refine ⟨h', fun x y => ?_⟩
    rw [himage', himage, List.mem_cons, Prod.ext_iff]
    tauto

/-- What a map pairs can be paired, one pair after the other. -/
theorem IsMatching.exists_pairAll {m : Symbol → Option Symbol} (hm : IsMatching m)
    (h : r.Coherent) (hr : r.ExtendedBy m) (hps : ∀ p ∈ ps, m p.1 = some p.2) :
    ∃ r', r.pairAll ps = some r' := by
  induction ps generalizing r with
  | nil => exact ⟨r, rfl⟩
  | cons p ps ih =>
    rw [List.forall_mem_cons] at hps
    obtain ⟨r₁, hfirst⟩ := hm.exists_pair h hr hps.1
    obtain ⟨h₁, himage⟩ := h.pair (hm.sort hps.1) hfirst
    have hr₁ : r₁.ExtendedBy m := by
      intro x y hxy
      rcases (himage x y).1 hxy with ⟨rfl, rfl⟩ | hxy
      · exact hps.1
      · exact hr x y hxy
    obtain ⟨r', hrest⟩ := ih h₁ hr₁ hps.2
    exact ⟨r', by rw [pairAll_cons, hfirst]; exact hrest⟩

end Renaming

end ClauseForm
