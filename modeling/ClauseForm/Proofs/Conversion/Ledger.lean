import ClauseForm.Proofs.Conversion.Biconditional
import ClauseForm.Proofs.Conversion.Distribution
import ClauseForm.Proofs.Conversion.Outcome
import ClauseForm.Proofs.Conversion.Passes
import ClauseForm.Proofs.Syntax.Relabeling

/-!
# A ledger of the new symbols

While a formula is converted, a ledger (`ClauseForm.Ledger`) says of each function symbol
that was introduced why it was: for an existentially bound variable, in the scope of
which universal ones, or as the name of which formula. That settles the arguments that the
symbol has wherever it occurs. A term is accounted for (`ClauseForm.Ledger.Accounts`) if
each of its symbols is one of the formula's own or has the arguments that the ledger says,
and each of its variables is a fresh one.

A ledger is carried on as symbols are introduced (`ClauseForm.Ledger.Continues`), and what
was accounted for stays so.
-/

namespace ClauseForm

/-- Why a function symbol was introduced. -/
inductive Mint where
  /-- For an existentially bound variable, the fresh variables of the universal quantifiers around
  it being given. -/
  | skolem (around : List Var)
  /-- As the name of a formula. -/
  | definition (formula : Term)

namespace Mint

/-- The origin of a symbol that was introduced for a reason. -/
def origin : Mint → Origin
  | skolem _ => .skolem
  | definition _ => .definition

/-- The variables that a symbol is applied to which was introduced for a reason. -/
def args : Mint → List Var
  | skolem around => around
  | definition formula => formula.freeVars

theorem isGenerated_origin (m : Mint) : m.origin.isGenerated = true := by
  cases m <;> rfl

end Mint

/-- What is known of the symbols of a conversion. -/
structure Ledger where
  /-- The function symbols that were there from the beginning. -/
  known : List FunSym
  /-- The number of the first fresh variable. -/
  firstVar : Nat
  /-- The number of the next fresh variable. -/
  nextVar : Nat
  /-- Fresh variables are numbered on from the first one. -/
  firstVar_le : firstVar ≤ nextVar
  /-- The number of the first new function symbol. -/
  firstFun : Nat
  /-- Why the new function symbols were introduced, from first to last. -/
  mints : List Mint

namespace Vocabulary

/-- Symbols were allotted, and those that were there keep their names. -/
structure Extends (voc voc' : Vocabulary) : Prop where
  vars : voc.vars.toList <+: voc'.vars.toList
  funs : voc.funs.toList <+: voc'.funs.toList

theorem Extends.refl (voc : Vocabulary) : voc.Extends voc :=
  ⟨List.prefix_refl _, List.prefix_refl _⟩

theorem Extends.trans {voc voc' voc'' : Vocabulary} (h : voc.Extends voc')
    (h' : voc'.Extends voc'') : voc.Extends voc'' :=
  ⟨h.vars.trans h'.vars, h.funs.trans h'.funs⟩

theorem Extends.vars_le {voc voc' : Vocabulary} (h : voc.Extends voc') :
    voc.vars.size ≤ voc'.vars.size := by
  simpa using h.vars.length_le

theorem Extends.funs_le {voc voc' : Vocabulary} (h : voc.Extends voc') :
    voc.funs.size ≤ voc'.funs.size := by
  simpa using h.funs.length_le

/-- The variables that were there keep their names. -/
theorem Extends.varName? {voc voc' : Vocabulary} (h : voc.Extends voc') {x : Var}
    (hx : x.id < voc.vars.size) : voc'.varName? x = voc.varName? x := by
  obtain ⟨rest, hrest⟩ := h.vars
  rw [Vocabulary.varName?, Vocabulary.varName?, ← Array.getElem?_toList, ← Array.getElem?_toList,
    ← hrest, List.getElem?_append_left (by simpa using hx)]

/-- So do the function symbols. -/
theorem Extends.funName? {voc voc' : Vocabulary} (h : voc.Extends voc') {f : FunSym}
    (hf : f.id < voc.funs.size) : voc'.funName? f = voc.funName? f := by
  obtain ⟨rest, hrest⟩ := h.funs
  rw [Vocabulary.funName?, Vocabulary.funName?, ← Array.getElem?_toList, ← Array.getElem?_toList,
    ← hrest, List.getElem?_append_left (by simpa using hf)]

theorem extends_newVar (voc : Vocabulary) (name : Option String) :
    voc.Extends (voc.newVar name).2 :=
  ⟨by simp, List.prefix_refl _⟩

theorem extends_newFun (voc : Vocabulary) (name : Option String) (origin : Origin) :
    voc.Extends (voc.newFun name origin).2 :=
  ⟨List.prefix_refl _, by simp⟩

end Vocabulary

namespace Ledger

open Conversion Term

variable {L L' L'' : Ledger} {s s' s'' : Conversion} {f : FunSym} {m : Mint} {t p : Term}

/-! ### What a ledger says of a term -/

/-- The symbol was introduced for the reason given. -/
def Records (L : Ledger) (f : FunSym) (m : Mint) : Prop :=
  ∃ k, L.mints[k]? = some m ∧ f = ⟨L.firstFun + k, m.origin⟩

/-- The top of a term is as the ledger says. -/
structure Allows (L : Ledger) (p : Term) : Prop where
  var : ∀ x, p = .var x → L.firstVar ≤ x.id ∧ x.id < L.nextVar
  head : ∀ f, p.head? = some f →
    f ∈ L.known ∨ ∃ m, L.Records f m ∧ p = f.appliedTo (m.args.map .var)
  isQuant : p.isQuant = false
  keepsArity : p.keepsArity = true

/-- All parts of a term are as the ledger says. -/
def Accounts (L : Ledger) (t : Term) : Prop :=
  ∀ p ∈ t.parts, L.Allows p

namespace Accounts

theorem quantifierFree (h : L.Accounts t) : t.QuantifierFree :=
  fun p hp => (h p hp).isQuant

theorem keepsArities (h : L.Accounts t) : t.KeepsArities :=
  fun p hp => (h p hp).keepsArity

theorem of_mem_parts (h : L.Accounts t) (hp : p ∈ t.parts) : L.Accounts p :=
  fun q hq => h q (mem_parts_trans hq hp)

end Accounts

theorem allows_node {op : Op} {args : List Term} (h : op.takes args.length = true) :
    L.Allows (.node op args) :=
  ⟨by simp, by simp [head?], rfl, h⟩

/-- An operator is accounted for if its arguments are. -/
theorem accounts_node {op : Op} {args : List Term} :
    L.Accounts (.node op args) ↔ op.takes args.length = true ∧ ∀ a ∈ args, L.Accounts a := by
  simp only [Accounts, parts_node, List.forall_mem_cons, List.forall_mem_flatMap]
  exact and_congr_left fun _ => ⟨fun h => h.keepsArity, allows_node⟩

theorem accounts_imp (hs : L.Accounts p) (ht : L.Accounts t) : L.Accounts (p.imp t) :=
  accounts_node.2 ⟨rfl, forall_mem_pair.2 ⟨hs, ht⟩⟩

theorem accounts_sideDefinition (hs : L.Accounts p) (ht : L.Accounts t) :
    L.Accounts (sideDefinition p t) :=
  accounts_node.2 ⟨rfl, forall_mem_pair.2 ⟨accounts_imp hs ht, accounts_imp ht hs⟩⟩

/-- So is a call of a symbol that was there from the beginning. -/
theorem accounts_call {args : List Term} (hf : f ∈ L.known) (h : ∀ a ∈ args, L.Accounts a) :
    L.Accounts (.call f args) := by
  simp only [Accounts, parts_call, List.forall_mem_cons, List.forall_mem_flatMap]
  exact ⟨⟨by simp, by simpa [head?] using Or.inl hf, rfl, rfl⟩, h⟩

theorem accounts_const (hf : f ∈ L.known) : L.Accounts (.const f) := by
  simp only [Accounts, parts_const, List.forall_mem_singleton]
  exact ⟨by simp, by simpa [head?] using Or.inl hf, rfl, rfl⟩

theorem accounts_of_isConstant (h : t.isConstant = true) : L.Accounts t := by
  cases t <;> simp [isConstant, isNumeric] at h
  all_goals
    intro p hp
    obtain rfl := List.mem_singleton.1 hp
    exact ⟨by simp, by simp [head?], rfl, rfl⟩

theorem accounts_var {x : Var} (h : L.firstVar ≤ x.id ∧ x.id < L.nextVar) :
    L.Accounts (.var x) := by
  intro p hp
  obtain rfl : p = .var x := by simpa using hp
  exact ⟨by simpa using h, by simp [head?], rfl, rfl⟩

/-- The variables of a term that is accounted for are fresh. -/
theorem Accounts.mem_vars (h : L.Accounts t) {x : Var} (hx : x ∈ t.vars) :
    L.firstVar ≤ x.id ∧ x.id < L.nextVar := by
  obtain ⟨p, hp, hvar⟩ := List.mem_filterMap.1 hx
  cases p <;> simp [var?] at hvar
  exact (h _ hp).var x (congrArg _ hvar)

/-- The function symbols of a term that is accounted for were there before, or are recorded. -/
theorem Accounts.mem_funs (h : L.Accounts t) (hf : f ∈ t.funs) :
    f ∈ L.known ∨ ∃ m, L.Records f m := by
  obtain ⟨p, hp, hhead⟩ := List.mem_filterMap.1 hf
  exact ((h p hp).head f hhead).imp_right fun ⟨m, hm, _⟩ => ⟨m, hm⟩

/-- A recorded symbol over the variables that the ledger says. -/
theorem accounts_appliedTo (h : L.Records f m)
    (hargs : ∀ x ∈ m.args, L.firstVar ≤ x.id ∧ x.id < L.nextVar) :
    L.Accounts (f.appliedTo (m.args.map .var)) := by
  intro p hp
  rw [FunSym.parts_appliedTo, List.mem_cons, List.flatMap_map, List.mem_flatMap] at hp
  rcases hp with rfl | ⟨x, hx, hp⟩
  · refine ⟨fun x hx => ?_, fun g hg => Or.inr ⟨m, ?_, ?_⟩, ?_, ?_⟩
    · have hvar := f.isVar_appliedTo (m.args.map .var)
      rw [hx] at hvar
      cases hvar
    · rw [FunSym.head?_appliedTo] at hg
      exact Option.some.inj hg ▸ h
    · rw [FunSym.head?_appliedTo] at hg
      rw [Option.some.inj hg]
    · cases m.args <;> rfl
    · cases m.args <;> rfl
  · exact accounts_var (hargs x hx) p hp

/-- One reason is recorded for a symbol. -/
theorem Records.unique {m' : Mint} (h : L.Records f m) (h' : L.Records f m') : m = m' := by
  obtain ⟨k, hk, rfl⟩ := h
  obtain ⟨k', hk', heq⟩ := h'
  obtain rfl : k = k' := by
    have hid := congrArg FunSym.id heq
    simp only at hid
    omega
  exact Option.some.inj (hk.symm.trans hk')

/-- Wherever a recorded symbol stands, it has the arguments that the ledger says, unless it was
there before. -/
theorem Accounts.eq_appliedTo (h : L.Accounts t) (hf : L.Records f m) (hnew : f ∉ L.known)
    (hp : p ∈ t.parts) (hhead : p.head? = some f) : p = f.appliedTo (m.args.map .var) := by
  obtain ⟨m', hm', heq⟩ := ((h p hp).head f hhead).resolve_left hnew
  rw [hf.unique hm']
  exact heq

/-! ### Later ledgers -/

/-- The ledger was carried on. -/
structure Continues (L L' : Ledger) : Prop where
  known : L'.known = L.known
  firstVar : L'.firstVar = L.firstVar
  nextVar : L.nextVar ≤ L'.nextVar
  firstFun : L'.firstFun = L.firstFun
  mints : L.mints <+: L'.mints

theorem Continues.refl (L : Ledger) : L.Continues L :=
  ⟨rfl, rfl, Nat.le_refl _, rfl, List.prefix_refl _⟩

theorem Continues.trans (h : L.Continues L') (h' : L'.Continues L'') : L.Continues L'' :=
  ⟨h'.known.trans h.known, h'.firstVar.trans h.firstVar, Nat.le_trans h.nextVar h'.nextVar,
    h'.firstFun.trans h.firstFun, h.mints.trans h'.mints⟩

theorem Continues.records (h : L.Continues L') (hf : L.Records f m) : L'.Records f m := by
  obtain ⟨k, hk, rfl⟩ := hf
  obtain ⟨rest, hrest⟩ := h.mints
  refine ⟨k, ?_, by rw [h.firstFun]⟩
  rw [← hrest, List.getElem?_append_left (List.getElem?_eq_some_iff.1 hk).1, hk]

/-- What is accounted for stays so. -/
theorem Continues.accounts (h : L.Continues L') (ht : L.Accounts t) : L'.Accounts t := by
  intro p hp
  obtain ⟨hvar, hhead, hq, hk⟩ := ht p hp
  refine ⟨fun x hx => ?_, fun f hf => ?_, hq, hk⟩
  · rw [h.firstVar]
    exact ⟨(hvar x hx).1, Nat.lt_of_lt_of_le (hvar x hx).2 h.nextVar⟩
  · rw [h.known]
    exact (hhead f hf).imp_right fun ⟨m, hm, heq⟩ => ⟨m, h.records hm, heq⟩

end Ledger

end ClauseForm
