import Mathlib.Data.Set.Function
import Mathlib.Logic.Function.Basic
import Mathlib.Order.Interval.Set.Defs
import ClauseForm.Proofs.Syntax.Exchange
import ClauseForm.Proofs.Syntax.Relabeling

/-!
# Numbers for the symbols of several vocabularies

Symbols are told by their numbers, so that a map of numbers (`ClauseForm.Numbering`) gives other
symbols for those of a clause (`ClauseForm.Clause.renumber`). Only the numbers that a vocabulary
has given so far matter to what is made of its symbols
(`ClauseForm.Term.HeldBy.renumber_eq`).

Where several vocabularies go on allotting symbols, in turns, and one vocabulary allots a symbol
for each of theirs, their numbers are merged (`ClauseForm.Merges`): those that were there before
stay, and the new ones of all become the new ones of the one, one to one. When one of the
vocabularies goes on, so does the map of its numbers (`ClauseForm.carryOn`), and the numbers stay
merged (`ClauseForm.Merges.advance`).
-/

namespace ClauseForm

/-! ### Other numbers -/

/-- Other numbers for variables, and for function symbols. -/
structure Numbering where
  /-- What takes the place of the number of a variable. -/
  var : ℕ → ℕ
  /-- What takes the place of the number of a function symbol. -/
  fn : ℕ → ℕ

namespace Numbering

/-- The variable of the other number. -/
def onVar (n : Numbering) (x : Var) : Var :=
  ⟨n.var x.id⟩

/-- The function symbol of the other number, of the same origin. -/
def onFn (n : Numbering) (f : FunSym) : FunSym :=
  ⟨n.fn f.id, f.origin⟩

/-- The numbers that the vocabulary has given so far have the same in their places. -/
structure AgreesOn (n n' : Numbering) (voc : Vocabulary) : Prop where
  var : ∀ k < voc.vars.size, n.var k = n'.var k
  fn : ∀ k < voc.funs.size, n.fn k = n'.fn k

theorem AgreesOn.refl (n : Numbering) (voc : Vocabulary) : n.AgreesOn n voc :=
  ⟨fun _ _ => rfl, fun _ _ => rfl⟩

theorem AgreesOn.trans {n n' n'' : Numbering} {voc : Vocabulary} (h : n.AgreesOn n' voc)
    (h' : n'.AgreesOn n'' voc) : n.AgreesOn n'' voc :=
  ⟨fun k hk => (h.var k hk).trans (h'.var k hk), fun k hk => (h.fn k hk).trans (h'.fn k hk)⟩

/-- One to one maps of numbers relabel terms. -/
def relabeling (n : Numbering) (hv : Function.Injective n.var) (hf : Function.Injective n.fn) :
    Relabeling where
  var := n.onVar
  fn := n.onFn
  var_injective := by
    rintro ⟨i⟩ ⟨j⟩ h
    exact congrArg Var.mk (hv (Var.mk.inj h))
  fn_injective := by
    rintro ⟨i, o⟩ ⟨j, o'⟩ h
    obtain ⟨hid, rfl⟩ := FunSym.mk.inj h
    exact congrArg (FunSym.mk · o) (hf hid)

end Numbering

/-- The term with other numbers for its symbols. -/
def Term.renumber (n : Numbering) (t : Term) : Term :=
  t.mapSymbols n.onVar n.onFn

/-- The clause with other numbers for its symbols. -/
def Clause.renumber (n : Numbering) (c : Clause) : Clause :=
  c.mapSymbols n.onVar n.onFn

namespace Term

variable {n n' : Numbering} {voc voc' : Vocabulary} {t : Term}

/-- Without quantifiers and with the argument counts kept, the term is made of symbols that the
vocabulary has given so far. -/
structure HeldBy (t : Term) (voc : Vocabulary) : Prop where
  quantifierFree : t.QuantifierFree
  keepsArities : t.KeepsArities
  vars : ∀ x ∈ t.vars, x.id < voc.vars.size
  funs : ∀ f ∈ t.funs, f.id < voc.funs.size

namespace HeldBy

theorem mono (h : t.HeldBy voc) (hv : voc.vars.size ≤ voc'.vars.size)
    (hf : voc.funs.size ≤ voc'.funs.size) : t.HeldBy voc' :=
  ⟨h.quantifierFree, h.keepsArities, fun x hx => Nat.lt_of_lt_of_le (h.vars x hx) hv,
    fun f hf' => Nat.lt_of_lt_of_le (h.funs f hf') hf⟩

/-- **Only the numbers given so far matter.** -/
theorem renumber_eq (h : t.HeldBy voc) (hn : n.AgreesOn n' voc) :
    t.renumber n = t.renumber n' :=
  mapSymbols_congr h.quantifierFree (fun x hx => congrArg Var.mk (hn.var _ (h.vars x hx)))
    fun f hf => congrArg (FunSym.mk · f.origin) (hn.fn _ (h.funs f hf))

end HeldBy

end Term

/-- The literals of the clause are made of symbols that the vocabulary has given so far. -/
def Clause.HeldBy (c : Clause) (voc : Vocabulary) : Prop :=
  ∀ l ∈ c.literals, l.HeldBy voc

theorem Clause.HeldBy.mono {c : Clause} {voc voc' : Vocabulary} (h : c.HeldBy voc)
    (hv : voc.vars.size ≤ voc'.vars.size) (hf : voc.funs.size ≤ voc'.funs.size) : c.HeldBy voc' :=
  fun l hl => (h l hl).mono hv hf

theorem Clause.HeldBy.renumber_eq {c : Clause} {voc : Vocabulary} {n n' : Numbering}
    (h : c.HeldBy voc) (hn : n.AgreesOn n' voc) : c.renumber n = c.renumber n' :=
  congrArg Clause.mk (List.map_congr_left fun l hl => (h l hl).renumber_eq hn)

/-! ### Numbers merged -/

/-- The map of numbers that goes on from `a` as from `b`. -/
def carryOn (f : ℕ → ℕ) (a b k : ℕ) : ℕ :=
  if k < a then f k else b + (k - a)

theorem carryOn_of_lt {f : ℕ → ℕ} {a b k : ℕ} (h : k < a) : carryOn f a b k = f k :=
  if_pos h

theorem carryOn_of_le {f : ℕ → ℕ} {a b k : ℕ} (h : a ≤ k) : carryOn f a b k = b + (k - a) :=
  if_neg (Nat.not_lt.2 h)

theorem carryOn_add (f : ℕ → ℕ) (a b k : ℕ) : carryOn f a b (a + k) = b + k := by
  rw [carryOn_of_le (Nat.le_add_right a k), Nat.add_sub_cancel_left]

theorem bijOn_carryOn (f : ℕ → ℕ) (a b d : ℕ) :
    Set.BijOn (carryOn f a b) (Set.Ico a (a + d)) (Set.Ico b (b + d)) := by
  refine ⟨fun k hk => ?_, fun k hk l hl heq => ?_, fun l hl => ?_⟩
  · rw [carryOn_of_le hk.1]
    have := hk.1
    have := hk.2
    constructor <;> omega
  · have := hk.1
    have := hl.1
    rw [carryOn_of_le hk.1, carryOn_of_le hl.1] at heq
    omega
  · have := hl.1
    have := hl.2
    refine ⟨a + (l - b), ⟨by omega, by omega⟩, ?_⟩
    rw [carryOn_add]
    omega

variable {ι : Type} {start now : ι → ℕ} {first next : ℕ} {r : ι → ℕ → ℕ}

/-- The numbers of each kind `i` from `start i` on, up to `now i`. -/
def numbersBetween (start now : ι → ℕ) : Set (ι × ℕ) :=
  {p | start p.1 ≤ p.2 ∧ p.2 < now p.1}

theorem mem_numbersBetween {i : ι} {k : ℕ} (hi : start i ≤ k) (hk : k < now i) :
    (i, k) ∈ numbersBetween start now :=
  ⟨hi, hk⟩

/-- The numbers of each kind `i` that came from `start i` on, up to `now i`, are exchanged one to
one for those that came from `first` on, up to `next`. The numbers before stay as they are. -/
structure Merges (start now : ι → ℕ) (first next : ℕ) (r : ι → ℕ → ℕ) : Prop where
  first_le : first ≤ next
  start_le : ∀ i, start i ≤ now i
  start_le_first : ∀ i, start i ≤ first
  fixed : ∀ i, ∀ k < start i, r i k = k
  bijOn : Set.BijOn (fun p : ι × ℕ => r p.1 p.2) (numbersBetween start now) (Set.Ico first next)

namespace Merges

/-- In the beginning, there is nothing to merge. -/
theorem init (h : ∀ i, start i ≤ first) : Merges start start first first fun _ => id := by
  refine ⟨Nat.le_refl _, fun i => Nat.le_refl _, h, fun _ _ _ => rfl, ?_, ?_, ?_⟩
  · exact fun p hp => absurd hp.1 (Nat.not_le.2 hp.2)
  · exact fun p hp => absurd hp.1 (Nat.not_le.2 hp.2)
  · exact fun k hk => absurd hk.1 (Nat.not_le.2 hk.2)

variable {i j : ι} {k l : ℕ}

/-- A new number is exchanged for a new one. -/
theorem mem_Ico (h : Merges start now first next r) (hi : start i ≤ k) (hk : k < now i) :
    first ≤ r i k ∧ r i k < next :=
  h.bijOn.mapsTo (mem_numbersBetween hi hk)

/-- Different new numbers are exchanged for different ones, whatever their kinds. -/
theorem eq_of_eq (h : Merges start now first next r) (hi : start i ≤ k) (hk : k < now i)
    (hj : start j ≤ l) (hl : l < now j) (heq : r i k = r j l) : (i, k) = (j, l) :=
  h.bijOn.injOn (mem_numbersBetween hi hk) (mem_numbersBetween hj hl) heq

/-- A number is new, or it stays. -/
theorem cases (h : Merges start now first next r) (hk : k < now i) :
    (start i ≤ k ∧ first ≤ r i k ∧ r i k < next) ∨ (k < start i ∧ r i k = k ∧ k < first) := by
  rcases Nat.lt_or_ge k (start i) with hlt | hge
  · exact .inr ⟨hlt, h.fixed i k hlt, Nat.lt_of_lt_of_le hlt (h.start_le_first i)⟩
  · exact .inl ⟨hge, h.mem_Ico hge hk⟩

theorem lt_next (h : Merges start now first next r) (hk : k < now i) : r i k < next := by
  have := h.first_le
  rcases h.cases hk with ⟨-, -, hlt⟩ | ⟨-, heq, hlt⟩ <;> omega

/-- Different numbers of one kind have different ones in their places, also when they go on. -/
theorem injective_carryOn (h : Merges start now first next r) (i : ι) :
    Function.Injective (carryOn (r i) (now i) next) := by
  have hold : ∀ {k l}, k < now i → l < now i → r i k = r i l → k = l := by
    intro k l hk hl hkl
    rcases h.cases hk with ⟨hik, hfirst, -⟩ | ⟨-, heq, hlt⟩ <;>
      rcases h.cases hl with ⟨hil, hfirst', -⟩ | ⟨-, heq', hlt'⟩
    · exact congrArg Prod.snd (h.eq_of_eq hik hk hil hl hkl)
    all_goals omega
  intro k l hkl
  rcases Nat.lt_or_ge k (now i) with hk | hk <;> rcases Nat.lt_or_ge l (now i) with hl | hl
  · rw [carryOn_of_lt hk, carryOn_of_lt hl] at hkl
    exact hold hk hl hkl
  · rw [carryOn_of_lt hk, carryOn_of_le hl] at hkl
    have := h.lt_next hk
    omega
  · rw [carryOn_of_le hk, carryOn_of_lt hl] at hkl
    have := h.lt_next hl
    omega
  · rw [carryOn_of_le hk, carryOn_of_le hl] at hkl
    omega

variable [DecidableEq ι]

/-- When one kind goes on, a number was there before and is kept in its place, or it is one of those
added. -/
theorem update_cases (r : ι → ℕ → ℕ) (next : ℕ) {d : ℕ}
    (hk : k < Function.update now i (now i + d) j) :
    (k < now j ∧ Function.update r i (carryOn (r i) (now i) next) j k = r j k) ∨
      (j = i ∧ now i ≤ k ∧ k < now i + d ∧
        Function.update r i (carryOn (r i) (now i) next) j k = next + (k - now i)) := by
  by_cases hj : j = i
  · subst hj
    rw [Function.update_self] at hk ⊢
    rcases Nat.lt_or_ge k (now j) with hlt | hge
    · exact .inl ⟨hlt, carryOn_of_lt hlt⟩
    · exact .inr ⟨rfl, hge, hk, carryOn_of_le hge⟩
  · rw [Function.update_of_ne hj] at hk ⊢
    exact .inl ⟨hk, rfl⟩

theorem le_update (now : ι → ℕ) (i : ι) (d : ℕ) (j : ι) :
    now j ≤ Function.update now i (now i + d) j :=
  le_update_self_iff.2 (Nat.le_add_right _ _) j

/-- A number that was there before is kept in its place. -/
theorem update_carryOn_of_lt (r : ι → ℕ → ℕ) (i : ι) (next : ℕ) (hk : k < now j) :
    Function.update r i (carryOn (r i) (now i) next) j k = r j k := by
  rcases update_cases r next (Nat.lt_of_lt_of_le hk (le_update now i 0 j)) with
    ⟨-, heq⟩ | ⟨rfl, hge, -⟩
  · exact heq
  · exact absurd hk (Nat.not_lt.2 hge)

theorem mapsTo_update (h : Merges start now first next r) (i : ι) (d : ℕ) :
    Set.MapsTo (fun p : ι × ℕ => Function.update r i (carryOn (r i) (now i) next) p.1 p.2)
      (numbersBetween start (Function.update now i (now i + d))) (Set.Ico first (next + d)) := by
  rintro ⟨j, k⟩ ⟨hjk, hk⟩
  have hfirst := h.first_le
  change start j ≤ k at hjk
  change k < Function.update now i (now i + d) j at hk
  change first ≤ Function.update r i _ j k ∧ Function.update r i _ j k < next + d
  rcases update_cases r next hk with ⟨hlt, heq⟩ | ⟨rfl, hge, hlt, heq⟩
  · have hnew := h.mem_Ico hjk hlt
    omega
  · omega

theorem injOn_update (h : Merges start now first next r) (i : ι) (d : ℕ) :
    Set.InjOn (fun p : ι × ℕ => Function.update r i (carryOn (r i) (now i) next) p.1 p.2)
      (numbersBetween start (Function.update now i (now i + d))) := by
  rintro ⟨j, k⟩ ⟨hjk, hk⟩ ⟨j', k'⟩ ⟨hjk', hk'⟩ hsame
  change Function.update r i _ j k = Function.update r i _ j' k' at hsame
  rcases update_cases r next hk with ⟨hlt, heq⟩ | ⟨rfl, hge, hlt, heq⟩ <;>
    rcases update_cases r next hk' with ⟨hlt', heq'⟩ | ⟨rfl, hge', hlt', heq'⟩ <;>
    rw [heq, heq'] at hsame
  · exact h.eq_of_eq hjk hlt hjk' hlt' hsame
  · have := h.lt_next hlt
    omega
  · have := h.lt_next hlt'
    omega
  · exact congrArg (Prod.mk _) (show k = k' by omega)

theorem surjOn_update (h : Merges start now first next r) (i : ι) (d : ℕ) :
    Set.SurjOn (fun p : ι × ℕ => Function.update r i (carryOn (r i) (now i) next) p.1 p.2)
      (numbersBetween start (Function.update now i (now i + d))) (Set.Ico first (next + d)) := by
  rintro y ⟨hfirst, hlast⟩
  rcases Nat.lt_or_ge y next with hlt | hge
  · obtain ⟨⟨j, k⟩, ⟨hjk, hk⟩, rfl⟩ := h.bijOn.surjOn ⟨hfirst, hlt⟩
    exact ⟨(j, k), ⟨hjk, Nat.lt_of_lt_of_le hk (le_update now i d j)⟩,
      update_carryOn_of_lt r i next hk⟩
  · refine ⟨(i, now i + (y - next)), ⟨Nat.le_trans (h.start_le i) (Nat.le_add_right _ _), ?_⟩, ?_⟩
    · change now i + (y - next) < Function.update now i (now i + d) i
      rw [Function.update_self]
      omega
    · change Function.update r i (carryOn (r i) (now i) next) i (now i + (y - next)) = y
      rw [Function.update_self, carryOn_add]
      omega

/-- **When one kind of numbers goes on, and the others wait, the numbers stay merged.** -/
theorem advance (h : Merges start now first next r) (i : ι) (d : ℕ) :
    Merges start (Function.update now i (now i + d)) first (next + d)
      (Function.update r i (carryOn (r i) (now i) next)) where
  first_le := Nat.le_trans h.first_le (Nat.le_add_right _ _)
  start_le j := Nat.le_trans (h.start_le j) (le_update now i d j)
  start_le_first := h.start_le_first
  fixed j k hk := by
    rw [update_carryOn_of_lt r i next (Nat.lt_of_lt_of_le hk (h.start_le j)), h.fixed j k hk]
  bijOn := ⟨h.mapsTo_update i d, h.injOn_update i d, h.surjOn_update i d⟩

end Merges

/-! ### Numbers in a row -/

section Row

variable {N : ℕ} {T : ℕ → ℕ}

/-- Of intervals in a row, a number lies in one only. -/
theorem eq_of_mem_Ico (hT : Monotone T) {i j k : ℕ} (hi : T i ≤ k) (hi' : k < T (i + 1))
    (hj : T j ≤ k) (hj' : k < T (j + 1)) : i = j := by
  rcases Nat.lt_trichotomy i j with hlt | heq | hgt
  · have := hT (show i + 1 ≤ j from hlt)
    omega
  · exact heq
  · have := hT (show j + 1 ≤ i from hgt)
    omega

theorem exists_mem_Ico {k : ℕ} (h : T 0 ≤ k) (h' : k < T N) :
    ∃ i : Fin N, T i ≤ k ∧ k < T (i + 1) := by
  induction N with
  | zero => exact absurd h' (Nat.not_lt.2 h)
  | succ N ih =>
    rcases Nat.lt_or_ge k (T N) with hlt | hge
    · obtain ⟨i, hi⟩ := ih hlt
      exact ⟨i.castSucc, hi⟩
    · exact ⟨Fin.last N, hge, h'⟩

/-- **Where the intervals stand in a row, one map does for all.** It leaves alone what is before
them. -/
theorem exists_common (hT : Monotone T) {r : Fin N → ℕ → ℕ} {target : Set ℕ}
    (h : Set.BijOn (fun p : Fin N × ℕ => r p.1 p.2)
      (numbersBetween (fun i => T i) fun i => T (i + 1)) target) :
    ∃ m : ℕ → ℕ, Set.BijOn m (Set.Ico (T 0) (T N)) target ∧
      (∀ i : Fin N, ∀ k, T i ≤ k → k < T (i + 1) → m k = r i k) ∧ ∀ k < T 0, m k = k := by
  have hplace : ∀ k, ∃ y, (∀ i : Fin N, T i ≤ k → k < T (i + 1) → y = r i k) ∧
      (k < T 0 → y = k) := by
    intro k
    by_cases hk : ∃ i : Fin N, T i ≤ k ∧ k < T (i + 1)
    · obtain ⟨i, hi, hi'⟩ := hk
      refine ⟨r i k, fun j hj hj' => ?_, fun hlt => ?_⟩
      · rw [Fin.ext (eq_of_mem_Ico hT hi hi' hj hj')]
      · exact absurd hlt (Nat.not_lt.2 (Nat.le_trans (hT (Nat.zero_le i)) hi))
    · exact ⟨k, fun i hi hi' => absurd ⟨i, hi, hi'⟩ hk, fun _ => rfl⟩
  choose m hm hstays using hplace
  refine ⟨m, ⟨fun k hk => ?_, fun k hk l hl heq => ?_, fun y hy => ?_⟩, fun i k => hm k i, hstays⟩
  · obtain ⟨i, hi, hi'⟩ := exists_mem_Ico hk.1 hk.2
    rw [hm k i hi hi']
    exact h.mapsTo (mem_numbersBetween hi hi')
  · obtain ⟨i, hi, hi'⟩ := exists_mem_Ico hk.1 hk.2
    obtain ⟨j, hj, hj'⟩ := exists_mem_Ico hl.1 hl.2
    rw [hm k i hi hi', hm l j hj hj'] at heq
    exact congrArg Prod.snd
      (h.injOn (mem_numbersBetween hi hi') (mem_numbersBetween hj hj') heq)
  · obtain ⟨⟨i, k⟩, ⟨hi, hi'⟩, rfl⟩ := h.surjOn hy
    refine ⟨k, ⟨Nat.le_trans (hT (Nat.zero_le _)) hi, ?_⟩, hm k i hi hi'⟩
    exact Nat.lt_of_lt_of_le hi' (hT (show (i : ℕ) + 1 ≤ N from i.isLt))

end Row

end ClauseForm
