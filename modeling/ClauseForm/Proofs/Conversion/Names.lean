import Mathlib.Data.List.Nodup
import ClauseForm.Proofs.Conversion.Staged

/-!
# The names of new functions

A Skolem function is named by a stem and the number of Skolem functions before it; a definitional
symbol by another stem and the number of definitional symbols before it. So the functions that a
conversion introduces are, by name, the first few of the one kind and the first few of the other
(`ClauseForm.Conversion.exists_roster`), in whatever order they come, and two of one kind never
share a name. Whether one of each kind do, is a matter of how many there are
(`ClauseForm.Conversion.distinctNames_convertAll_iff`).

No names are ever shared if and only if the stems cannot be mistaken for each other with numbers
behind them (`ClauseForm.distinctNames_iff`). They can if they are the same, but also if one of
them is the other one with digits behind it that a numeral can begin with
(`ClauseForm.LeadsNumerals`), as `a` and `a1` are: `a1` followed by `0` is `a` followed by `10`.
-/

namespace ClauseForm

/-! ### Numerals -/

section Numerals

variable {c : Char} {u cs : List Char} {n : Nat}

/-- A digit character is the numeral of a number below ten. -/
theorem exists_digitChar (h : c.isDigit = true) : ∃ d < 10, Nat.digitChar d = c := by
  obtain ⟨hlow, hhigh⟩ := Char.isDigit_iff_toNat.1 h
  change 48 ≤ c.toNat at hlow
  change c.toNat ≤ 57 at hhigh
  have hlt : c.toNat - 48 < 10 := by omega
  refine ⟨c.toNat - 48, hlt, Char.toNat_inj.1 ?_⟩
  rw [Nat.toNat_digitChar_of_lt_ten hlt]
  omega

/-- A numeral begins with a zero only if it is that of zero. -/
theorem eq_zero_of_head?_toDigits (h : (Nat.toDigits 10 n).head? = some '0') : n = 0 := by
  induction n using Nat.strongRecOn with
  | ind n ih =>
    rcases Nat.lt_or_ge n 10 with hlt | hge
    · rw [Nat.toDigits_of_lt_base hlt] at h
      exact Nat.digitChar_eq_zero.1 (Option.some.inj h)
    · rw [Nat.toDigits_of_base_le (by decide) hge, List.head?_append_of_ne_nil _
        Nat.toDigits_ne_nil] at h
      have := ih (n / 10) (by omega) h
      omega

/-- Digits behind the numeral of a positive number make the numeral of another one. -/
theorem exists_toDigits_append (h : ∀ c ∈ cs, c.isDigit = true) (hn : 0 < n) :
    ∃ m, 0 < m ∧ Nat.toDigits 10 m = Nat.toDigits 10 n ++ cs := by
  induction cs generalizing n with
  | nil => exact ⟨n, hn, (List.append_nil _).symm⟩
  | cons c cs ih =>
    rw [List.forall_mem_cons] at h
    obtain ⟨d, hd, rfl⟩ := exists_digitChar h.1
    obtain ⟨m, hm, hdigits⟩ := ih h.2 (show 0 < 10 * n + d by omega)
    refine ⟨m, hm, hdigits.trans ?_⟩
    rw [← Nat.toDigits_append_toDigits (by decide) hn hd, Nat.toDigits_of_lt_base hd,
      List.append_assoc, List.singleton_append]

/-- The characters are digits, of which the first one is not zero; there may be none. -/
def LeadsNumerals (u : List Char) : Prop :=
  (∀ c ∈ u, c.isDigit = true) ∧ u.head? ≠ some '0'

/-- **Such characters can be taken away in front of a numeral to leave another one**, and no others
can. -/
theorem leadsNumerals_iff : LeadsNumerals u ↔
    ∃ m n, Nat.toDigits 10 m = u ++ Nat.toDigits 10 n := by
  constructor
  · rintro ⟨hdigits, hhead⟩
    cases u with
    | nil => exact ⟨0, 0, rfl⟩
    | cons c cs =>
      rw [List.forall_mem_cons] at hdigits
      obtain ⟨d, hd, rfl⟩ := exists_digitChar hdigits.1
      have hpos : 0 < d := Nat.pos_of_ne_zero fun h => hhead (by rw [h]; rfl)
      -- with a zero behind them, they are a numeral
      have hzero : ∀ a ∈ cs ++ ['0'], a.isDigit = true :=
        List.forall_mem_append.2 ⟨hdigits.2, List.forall_mem_singleton.2 rfl⟩
      obtain ⟨m, -, hm⟩ := exists_toDigits_append hzero hpos
      refine ⟨m, 0, hm.trans ?_⟩
      rw [Nat.toDigits_of_lt_base hd, Nat.toDigits_zero]
      rfl
  · rintro ⟨m, n, h⟩
    refine ⟨fun c hc => ?_, fun hhead => ?_⟩
    · exact Nat.isDigit_of_mem_toDigits (b := 10) (n := m) (by decide) (by decide)
        (h ▸ List.mem_append_left _ hc)
    · -- only the numeral of zero begins with a zero, and nothing more stands there
      have hm : m = 0 := eq_zero_of_head?_toDigits (by rw [h, List.head?_append, hhead]; rfl)
      have hlength := congrArg List.length h
      rw [hm, Nat.toDigits_zero, List.length_append] at hlength
      have hn := Nat.length_toDigits_pos (b := 10) (n := n)
      cases u with
      | nil => cases hhead
      | cons c cs =>
        simp only [List.length_cons, List.length_nil] at hlength
        omega

end Numerals

/-! ### Names that are numbered -/

/-- The name that consists of a stem and a number. -/
def numbered (stem : String) (i : Nat) : String :=
  stem ++ toString i

theorem toList_numbered (stem : String) (i : Nat) :
    (numbered stem i).toList = stem.toList ++ Nat.toDigits 10 i := by
  rw [numbered, String.toList_append, Nat.toString_eq_repr, Nat.toList_repr]

/-- Under one stem, different numbers make different names. -/
theorem numbered_injective (stem : String) : Function.Injective (numbered stem) := by
  intro i j h
  have hdigits : Nat.toDigits 10 i = Nat.toDigits 10 j := by
    have hlists := congrArg String.toList h
    rw [toList_numbered, toList_numbered] at hlists
    exact List.append_cancel_left hlists
  calc
    i = Nat.ofDigitChars 10 (Nat.toDigits 10 i) 0 := Nat.ofDigitChars_ten_toDigits.symm
    _ = Nat.ofDigitChars 10 (Nat.toDigits 10 j) 0 := by rw [hdigits]
    _ = j := Nat.ofDigitChars_ten_toDigits

/-- **Two stems make a name in common** exactly if one of them is the other one with characters
behind it that lead numerals. -/
theorem exists_numbered_eq_iff {stem stem' : String} :
    (∃ i j, numbered stem i = numbered stem' j) ↔ ∃ u, LeadsNumerals u ∧
      (stem'.toList = stem.toList ++ u ∨ stem.toList = stem'.toList ++ u) := by
  simp only [← String.toList_inj, toList_numbered]
  constructor
  · rintro ⟨i, j, h⟩
    rcases List.append_eq_append_iff.1 h with ⟨u, hstem, hu⟩ | ⟨u, hstem, hu⟩
    · exact ⟨u, leadsNumerals_iff.2 ⟨i, j, hu⟩, .inl hstem⟩
    · exact ⟨u, leadsNumerals_iff.2 ⟨j, i, hu⟩, .inr hstem⟩
  · rintro ⟨u, hu, hstem | hstem⟩
    · obtain ⟨m, n, h⟩ := leadsNumerals_iff.1 hu
      exact ⟨m, n, by rw [hstem, h, List.append_assoc]⟩
    · obtain ⟨m, n, h⟩ := leadsNumerals_iff.1 hu
      exact ⟨n, m, by rw [hstem, h, List.append_assoc]⟩

example : numbered "a" 10 = numbered "a1" 0 := by decide

/-- One of the two stems is the other one followed by characters that lead numerals. These may be
none, so that equal stems overlap. -/
def Config.StemsOverlap (config : Config) : Prop :=
  ∃ u, LeadsNumerals u ∧
    (config.definitionStem.toList = config.skolemStem.toList ++ u ∨
      config.skolemStem.toList = config.definitionStem.toList ++ u)

/-- Different functions that were introduced between two stages of a vocabulary are shown under
different names. -/
def DistinctNames (before after : Vocabulary) : Prop :=
  ∀ f g, before.Minted after f → before.Minted after g → f.id ≠ g.id →
    after.funText f ≠ after.funText g

namespace Conversion

open ConvertM Term

variable {voc : Vocabulary} {names : List String} {s s' : Conversion}

/-! ### The functions introduced so far -/

/-- The names of the functions that a conversion introduced, those of Skolem functions first. -/
def newNames (s : Conversion) : List String :=
  (List.range s.skolems).map (numbered s.config.skolemStem) ++
    (List.range s.definitions).map (numbered s.config.definitionStem)

/-- No name occurs twice unless it is that of one function of each kind. -/
theorem nodup_newNames_iff : s.newNames.Nodup ↔ ∀ i < s.skolems, ∀ j < s.definitions,
    numbered s.config.skolemStem i ≠ numbered s.config.definitionStem j := by
  have hone : ∀ stem n, ((List.range n).map (numbered stem)).Nodup := fun stem n =>
    List.Nodup.map (numbered_injective stem) List.nodup_range
  rw [newNames, List.nodup_append, and_iff_right (hone _ _), and_iff_right (hone _ _)]
  simp only [List.mem_map, List.mem_range, forall_exists_index, and_imp,
    forall_apply_eq_imp_iff₂]

/-- The conversion began with the vocabulary `voc`, and introduced functions under the given names,
in that order. -/
structure Roster (voc : Vocabulary) (names : List String) (s : Conversion) : Prop where
  funs : s.vocabulary.funs.toList = voc.funs.toList ++ names.map some
  perm : names.Perm s.newNames

theorem roster_start (config : Config) (voc : Vocabulary) : Roster voc [] (start config voc) :=
  ⟨(List.append_nil _).symm, .refl _⟩

namespace Roster

/-- What one step does to the names. -/
theorem step (h : Roster voc names s) (hstep : Step s s') : ∃ names', Roster voc names' s' := by
  have hpush : ∀ name : String, (s.vocabulary.funs.push (some name)).toList =
      voc.funs.toList ++ (names ++ [name]).map some := by
    intro name
    rw [Array.toList_push, h.funs, List.map_append, List.append_assoc]
    rfl
  cases hstep with
  | freshLike x => exact ⟨names, h.funs, h.perm⟩
  | newSkolem =>
    -- the new name stands last in the roster, but ahead of the names of the other kind in the list
    refine ⟨names ++ [numbered s.config.skolemStem s.skolems], hpush _, ?_⟩
    refine (h.perm.append_right _).trans ?_
    simp only [newNames, List.range_succ, List.map_append, List.append_assoc]
    exact List.perm_append_comm.append_left _
  | newDefinition =>
    refine ⟨names ++ [numbered s.config.definitionStem s.definitions], hpush _, ?_⟩
    refine (h.perm.append_right _).trans (.of_eq ?_)
    simp only [newNames, List.range_succ, List.map_append, List.append_assoc]
    rfl
  | enter entry => exact ⟨names, h.funs, h.perm⟩
  | gather c => exact ⟨names, h.funs, h.perm⟩

theorem steps (h : Roster voc names s) (hsteps : Steps s s') : ∃ names', Roster voc names' s' := by
  induction hsteps with
  | refl => exact ⟨names, h⟩
  | tail _ hstep ih =>
    obtain ⟨names', h'⟩ := ih
    exact h'.step hstep

/-- The functions that were introduced are numbered one after the other. -/
theorem minted_iff (h : Roster voc names s) {f : FunSym} : voc.Minted s.vocabulary f ↔
    f.origin.isGenerated = true ∧ ∃ k < names.length, f.id = voc.funs.size + k := by
  have hsize : s.vocabulary.funs.size = voc.funs.size + names.length := by
    simpa using congrArg List.length h.funs
  rw [Vocabulary.Minted, hsize]
  constructor
  · exact fun ⟨hle, hlt, hgenerated⟩ => ⟨hgenerated, f.id - voc.funs.size, by omega, by omega⟩
  · rintro ⟨hgenerated, k, hk, hid⟩
    exact ⟨by omega, by omega, hgenerated⟩

/-- Each is shown under its name. -/
theorem funText (h : Roster voc names s) {f : FunSym} {k : Nat} (hk : k < names.length)
    (hid : f.id = voc.funs.size + k) : s.vocabulary.funText f = names[k] := by
  have hname : s.vocabulary.funs[f.id]? = some (some names[k]) := by
    rw [← Array.getElem?_toList, h.funs, hid, ← Array.length_toList, List.getElem?_append_right
      (Nat.le_add_right _ _), Nat.add_sub_cancel_left, List.getElem?_map,
      List.getElem?_eq_getElem hk]
    rfl
  rw [Vocabulary.funText, Vocabulary.funName?, hname]
  rfl

/-- **Different functions are shown under different names** if no name occurs twice, and only
then. -/
theorem distinctNames_iff_nodup (h : Roster voc names s) :
    DistinctNames voc s.vocabulary ↔ names.Nodup := by
  constructor
  · intro hdistinct
    rw [List.nodup_iff_injective_get]
    intro i j hij
    by_contra hne
    refine hdistinct ⟨voc.funs.size + i, .skolem⟩ ⟨voc.funs.size + j, .skolem⟩
      (h.minted_iff.2 ⟨rfl, i, i.2, rfl⟩) (h.minted_iff.2 ⟨rfl, j, j.2, rfl⟩) ?_ ?_
    · exact fun hid => hne (Fin.ext (Nat.add_left_cancel hid))
    · rw [h.funText i.2 rfl, h.funText j.2 rfl]
      exact hij
  · intro hnodup f g hf hg hne htext
    obtain ⟨-, i, hi, hfi⟩ := h.minted_iff.1 hf
    obtain ⟨-, j, hj, hgj⟩ := h.minted_iff.1 hg
    rw [h.funText hi hfi, h.funText hj hgj] at htext
    obtain rfl : i = j := (hnodup.getElem_inj_iff).1 htext
    exact hne (hfi.trans hgj.symm)

/-- That is a matter of the numbers of functions of either kind. -/
theorem distinctNames_iff_counters (h : Roster voc names s) :
    DistinctNames voc s.vocabulary ↔ ∀ i < s.skolems, ∀ j < s.definitions,
      numbered s.config.skolemStem i ≠ numbered s.config.definitionStem j := by
  rw [h.distinctNames_iff_nodup, h.perm.nodup_iff, nodup_newNames_iff]

end Roster

/-- **Whatever formulas are added, and even if that ends in a fault**, there is a roster of the
functions introduced. -/
theorem exists_roster (config : Config) (ts : List Term) (voc : Vocabulary) :
    ∃ names, Roster voc names (left (addAll ts (start config voc))) :=
  (roster_start config voc).steps (bySteps_addAll ts _)

/-- The vocabulary that several conversions leave is that of the last state. -/
theorem convertAll_snd (config : Config) (ts : List Term) (voc : Vocabulary) :
    (convertAll config ts voc).2 = (left (addAll ts (start config voc))).vocabulary := by
  rw [convertAll, EStateM.run]
  cases addAll ts (start config voc) <;> rfl

/-- **Names are shared only between a Skolem function and a definitional symbol**, and it can be
told from the numbers of these whether any are. -/
theorem distinctNames_convertAll_iff {config : Config} {ts : List Term} {voc : Vocabulary}
    (h : left (addAll ts (start config voc)) = s) :
    DistinctNames voc (convertAll config ts voc).2 ↔ ∀ i < s.skolems, ∀ j < s.definitions,
      numbered config.skolemStem i ≠ numbered config.definitionStem j := by
  subst h
  obtain ⟨names, hroster⟩ := exists_roster config ts voc
  rw [convertAll_snd, hroster.distinctNames_iff_counters, (bySteps_addAll ts _).config]
  rfl

/-! ### Formulas that use up names -/

/-- The formula `?[X]: ((p & q) <=> p)`, for which a Skolem function and a definitional symbol are
introduced. -/
def namingExample : Term :=
  .quant .exist [⟨0⟩] (.iff (.conj [.const ⟨0, .declared⟩, .const ⟨1, .declared⟩])
    (.const ⟨0, .declared⟩))

/-- The vocabulary of `ClauseForm.Conversion.namingExample`. -/
def namingVocabulary : Vocabulary :=
  { vars := #[some "X"], funs := #[some "p", some "q"] }

/-- Naming a formula uses up a number. -/
theorem definitions_lt_of_nameFor {t atom : Term} (h : nameFor t s = .ok atom s') :
    s.definitions < s'.definitions := by
  obtain ⟨f, s₁, hnew, hrest⟩ := bind_eq_ok.1 h
  have hlast : Composed (do
      report (.defining (f.appliedTo (t.freeVars.map .var)) t)
      return f.appliedTo (t.freeVars.map .var)) := (Composed.report _).bind fun _ => .pure _
  cases hnew
  exact (hlast.bySteps.steps hrest).counters_le.2

/-- So does naming a side of a biconditional that is a connective. -/
theorem definitions_lt_of_nameSide {define : Term → ConvertM Unit}
    (hdefine : ∀ t, Composed (define t)) {t core l : Term} (ht : t.stripNegations = .ok core)
    (hcore : core.op?.any Op.isConnective = true) (h : nameSide define t s = .ok l s') :
    s.definitions < s'.definitions := by
  unfold nameSide at h
  rw [ht] at h
  obtain ⟨_, s₁, hstrip, h⟩ := bind_eq_ok.1 h
  cases hstrip
  rw [if_pos hcore] at h
  obtain ⟨atom, s₁, hname, h⟩ := bind_eq_ok.1 h
  have hlast : Composed (do
      define (sideDefinition t atom)
      return atom) := (hdefine _).bind fun _ => .pure _
  exact Nat.lt_of_lt_of_le (definitions_lt_of_nameFor hname)
    (hlast.bySteps.steps h).counters_le.2

/-- Where two sides hold no biconditionals, the first thing done is to name the left one. -/
theorem expandIffs_iff (define : Term → ConvertM Unit) {l r : Term} (hl : l.Expanded)
    (hr : r.Expanded) : expandIffs define (l.iff r) = (do
      let l ← nameSide define l
      let r ← nameSide define r
      expandIff l r) := by
  rw [Term.iff, expandIffs, expandIffsAll, expandIffsAll, expandIffsAll,
    expandIffs_of_expanded define hl, expandIffs_of_expanded define hr]
  rfl

/-- Adding the formula uses up a number of each kind. -/
theorem exists_add_namingExample (hs : s.journal = none) : ∃ s', add namingExample s = .ok () s' ∧
    s.skolems < s'.skolems ∧ s.definitions < s'.definitions := by
  have hk : namingExample.KeepsArities := WellFormed.keepsArities (by decide)
  have hprepared : prepared s.config namingExample = .ok namingExample := by
    unfold prepared
    split <;> rfl
  obtain ⟨s', hrun⟩ := exists_add hk s
  obtain ⟨s₁, s₂, s₃, m, e, c, hstaged, hgather⟩ := exists_staged_of_add hprepared hs hk hrun
  refine ⟨s', hrun, ?_⟩
  have hrest : Steps s₂ s' :=
    hstaged.steps₃.trans ((composed_gatherClauses c).bySteps.steps hgather)
  -- the quantifier makes a Skolem function, the left side of the biconditional a name
  obtain ⟨hmatrix, hexpand, -⟩ := hstaged
  cases hmatrix
  have hdefine := composed_convertWithin 3
  have hleft : (Term.conj [.const ⟨0, .declared⟩, .const ⟨1, .declared⟩]).Expanded :=
    .node (by decide) (forall_mem_pair.2 ⟨.leaf rfl, .leaf rfl⟩)
  have hsides := expandIffs_iff (convertWithin 3) hleft (r := .const ⟨0, .declared⟩) (.leaf rfl)
  obtain ⟨l, r, hname, hright⟩ := bind_eq_ok.1 ((congrFun hsides _).symm.trans hexpand)
  have hlast : Composed (do
      let r ← nameSide (convertWithin 3) (.const ⟨0, .declared⟩)
      expandIff l r) := (composed_nameSide hdefine _).bind fun _ => .ofExcept _
  have hafter : Steps r s' := (hlast.bySteps.steps hright).trans hrest
  have hbefore := (composed_nameSide hdefine _).bySteps.steps hname
  have hnamed := definitions_lt_of_nameSide hdefine rfl rfl hname
  exact ⟨Nat.le_trans hbefore.counters_le.1 hafter.counters_le.1,
    Nat.lt_of_lt_of_le hnamed hafter.counters_le.2⟩

/-- So does adding it several times, as often as it is added. -/
theorem exists_addAll_replicate (n : Nat) (hs : s.journal = none) :
    ∃ counts s', addAll (List.replicate n namingExample) s = .ok counts s' ∧
      n ≤ s'.skolems ∧ n ≤ s'.definitions := by
  have hgrown : ∃ counts s', addAll (List.replicate n namingExample) s = .ok counts s' ∧
      s.skolems + n ≤ s'.skolems ∧ s.definitions + n ≤ s'.definitions := by
    induction n generalizing s with
    | zero => exact ⟨[], s, rfl, Nat.le_refl _, Nat.le_refl _⟩
    | succ n ih =>
      obtain ⟨s₁, hrun, hskolems, hdefinitions⟩ := exists_add_namingExample hs
      obtain ⟨counts, s₂, hrest, hskolems', hdefinitions'⟩ :=
        ih (((bySteps_add _).steps hrun).journal hs)
      refine ⟨s₁.clauses.length :: counts, s₂, ?_, by omega, by omega⟩
      refine bind_eq_ok.2 ⟨(), s₁, hrun, ?_⟩
      exact bind_eq_ok.2 ⟨s₁, s₁, rfl, bind_eq_ok.2 ⟨counts, s₂, hrest, rfl⟩⟩
  obtain ⟨counts, s', hrun, hskolems, hdefinitions⟩ := hgrown
  exact ⟨counts, s', hrun, by omega, by omega⟩

end Conversion

open Conversion ConvertM

/-- **Different functions that are introduced by one conversion are shown under different names**,
whatever formulas are added to it, if and only if the stems do not overlap: neither of them is the
other one, nor the other one followed by digits of which the first is not zero. -/
theorem distinctNames_iff (config : Config) :
    (∀ ts voc, DistinctNames voc (convertAll config ts voc).2) ↔ ¬config.StemsOverlap := by
  rw [Config.StemsOverlap, ← exists_numbered_eq_iff]
  constructor
  · -- so many formulas are added that both numbers come up
    rintro hdistinct ⟨i, j, h⟩
    obtain ⟨counts, s, hrun, hskolems, hdefinitions⟩ :=
      exists_addAll_replicate (s := start config {}) (max i j + 1) rfl
    have hall := (distinctNames_convertAll_iff (congrArg left hrun)).1 (hdistinct _ {})
    exact hall i (show i < s.skolems by omega) j (show j < s.definitions by omega) h
  · intro hne ts voc
    rw [distinctNames_convertAll_iff rfl]
    exact fun i _ j _ h => hne ⟨i, j, h⟩

/-- With the stems that are chosen if nothing is said, there is no overlap. -/
theorem not_stemsOverlap_default : ¬({} : Config).StemsOverlap := by
  rintro ⟨u, -, h | h⟩
  · cases h
  · cases h

/-- **Two functions can have the same name**: with the stem `f` for both kinds, the Skolem function
and the name that `?[X]: ((p & q) <=> p)` needs are shown as `f0`. -/
theorem not_distinctNames_namingExample :
    ¬DistinctNames namingVocabulary
      (convertAll { skolemStem := "f", definitionStem := "f" } [namingExample]
        namingVocabulary).2 := by
  obtain ⟨counts, s, hrun, hskolems, hdefinitions⟩ := exists_addAll_replicate
    (s := start { skolemStem := "f", definitionStem := "f" } namingVocabulary) 1 rfl
  intro hdistinct
  have hall := (distinctNames_convertAll_iff (congrArg left hrun)).1 hdistinct
  exact hall 0 hskolems 0 hdefinitions rfl

end ClauseForm
