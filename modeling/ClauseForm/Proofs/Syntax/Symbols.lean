import Mathlib.Data.List.Basic
import ClauseForm.Proofs.Syntax.Free
import ClauseForm.Renaming

/-!
# Symbols and what is built over them

The symbols of a term (`ClauseForm.Term.symbols`) in the order in which a walk meets
them: the head of a call before its arguments, bound variables before the body that
they are bound in. What is left when they are taken away is the *skeleton*
(`ClauseForm.Term.skeleton`). Skeleton and symbols together are the term, but for the
origins of its function symbols (`ClauseForm.Term.eraseOrigins_eq_iff`).

Symbols are exchanged for others by `ClauseForm.Term.mapSymbols`, binders included, which
leaves the skeleton alone (`ClauseForm.Term.skeleton_mapSymbols`).
-/

namespace ClauseForm

namespace Symbol

/-- The number of a symbol. -/
def number : Symbol → Nat
  | var id | fn id => id

/-- Whether a symbol is a variable. -/
def isVar : Symbol → Bool
  | var _ => true
  | fn _ => false

/-- A symbol is told by its sort and its number. -/
theorem eq_of_isVar_eq {s t : Symbol} (hsort : s.isVar = t.isVar)
    (hnumber : s.number = t.number) : s = t := by
  cases s <;> cases t <;> simp_all [isVar, number]

end Symbol

namespace Term

/-! ### Exchanging symbols -/

mutual

/-- The term with every variable and every function symbol exchanged for another one, the variables
that quantifiers bind included. -/
def mapSymbols (v : Var → Var) (g : FunSym → FunSym) : Term → Term
  | .const f => .const (g f)
  | .var x => .var (v x)
  | .call f args => .call (g f) (mapSymbolsAll v g args)
  | .node op args => .node op (mapSymbolsAll v g args)
  | .quant q vars body => .quant q (vars.map v) (mapSymbols v g body)
  | t => t

/-- Several terms with their variables and function symbols exchanged. -/
def mapSymbolsAll (v : Var → Var) (g : FunSym → FunSym) : List Term → List Term
  | [] => []
  | t :: ts => mapSymbols v g t :: mapSymbolsAll v g ts

end

theorem mapSymbolsAll_eq_map (v : Var → Var) (g : FunSym → FunSym) (ts : List Term) :
    mapSymbolsAll v g ts = ts.map (mapSymbols v g) := by
  induction ts with
  | nil => rfl
  | cons t ts ih => exact congrArg (mapSymbols v g t :: ·) ih

section Equations

variable (v : Var → Var) (g : FunSym → FunSym)

@[simp]
theorem mapSymbols_var (x : Var) : (Term.var x).mapSymbols v g = .var (v x) := rfl

@[simp]
theorem mapSymbols_const (f : FunSym) : (Term.const f).mapSymbols v g = .const (g f) := rfl

@[simp]
theorem mapSymbols_call (f : FunSym) (args : List Term) :
    (Term.call f args).mapSymbols v g = .call (g f) (args.map (mapSymbols v g)) :=
  congrArg (Term.call (g f)) (mapSymbolsAll_eq_map v g args)

@[simp]
theorem mapSymbols_node (op : Op) (args : List Term) :
    (Term.node op args).mapSymbols v g = .node op (args.map (mapSymbols v g)) :=
  congrArg (Term.node op) (mapSymbolsAll_eq_map v g args)

@[simp]
theorem mapSymbols_quant (q : Quantifier) (vars : List Var) (body : Term) :
    (Term.quant q vars body).mapSymbols v g = .quant q (vars.map v) (body.mapSymbols v g) :=
  rfl

@[simp]
theorem mapSymbols_bool (b : Bool) : (Term.bool b).mapSymbols v g = .bool b := rfl

@[simp]
theorem mapSymbols_object (name : String) : (Term.object name).mapSymbols v g = .object name := rfl

@[simp]
theorem mapSymbols_integer (n : Int) : (Term.integer n).mapSymbols v g = .integer n := rfl

@[simp]
theorem mapSymbols_rational (x : Rat) : (Term.rational x).mapSymbols v g = .rational x := rfl

@[simp]
theorem mapSymbols_real (x : Rat) : (Term.real x).mapSymbols v g = .real x := rfl

end Equations

/-- One exchange after the other is one exchange. -/
theorem mapSymbols_mapSymbols (v v' : Var → Var) (g g' : FunSym → FunSym) (t : Term) :
    (t.mapSymbols v g).mapSymbols v' g' = t.mapSymbols (v' ∘ v) (g' ∘ g) := by
  induction t using Term.induct with
  | call f args ih | node op args ih =>
    simp only [mapSymbols_call, mapSymbols_node, List.map_map, Function.comp_apply]
    exact congrArg _ (List.map_congr_left ih)
  | quant q vars body ih => simp only [mapSymbols_quant, List.map_map, ih]
  | _ => simp

/-- Exchanging every symbol for itself changes nothing. -/
@[simp]
theorem mapSymbols_id (t : Term) : t.mapSymbols id id = t := by
  induction t using Term.induct with
  | call f args ih | node op args ih =>
    simp only [mapSymbols_call, mapSymbols_node, List.map_congr_left ih, List.map_id', id]
  | quant q vars body ih => rw [mapSymbols_quant, ih, List.map_id]
  | _ => simp

/-- The parts of the result come from the parts of the term. -/
theorem parts_mapSymbols (v : Var → Var) (g : FunSym → FunSym) (t : Term) :
    (t.mapSymbols v g).parts = t.parts.map (mapSymbols v g) := by
  induction t using Term.induct with
  | call f args ih | node op args ih =>
    simp only [mapSymbols_call, mapSymbols_node, parts_call, parts_node, List.map_cons,
      List.map_flatMap, List.flatMap_map]
    exact congrArg _ (congrArg List.flatten (List.map_congr_left ih))
  | quant q vars body ih => simp [ih]
  | _ => simp

theorem quantifierFree_mapSymbols {v : Var → Var} {g : FunSym → FunSym} {t : Term} :
    (t.mapSymbols v g).QuantifierFree ↔ t.QuantifierFree := by
  have hquant : ∀ p : Term, (p.mapSymbols v g).isQuant = p.isQuant := by
    intro p
    cases p <;> simp [isQuant]
  simp only [QuantifierFree, parts_mapSymbols, List.forall_mem_map, hquant]

theorem keepsArities_mapSymbols {v : Var → Var} {g : FunSym → FunSym} {t : Term} :
    (t.mapSymbols v g).KeepsArities ↔ t.KeepsArities := by
  have harity : ∀ p : Term, (p.mapSymbols v g).keepsArity = p.keepsArity := by
    intro p
    cases p <;> simp [keepsArity]
  simp only [KeepsArities, parts_mapSymbols, List.forall_mem_map, harity]

/-! ### The symbols of a term -/

/-- The symbols that stand at the top of a term. -/
def topSymbols : Term → List Symbol
  | .const f | .call f _ => [.fn f.id]
  | .var x => [.var x.id]
  | .quant _ vars _ => vars.map (.var ·.id)
  | _ => []

/-- The symbols of a term, each as often as it occurs, bound variables included. -/
def symbols (t : Term) : List Symbol :=
  t.parts.flatMap topSymbols

/-- The function symbol that is called at the top of a term. -/
def called? : Term → Option FunSym
  | .call f _ => some f
  | _ => none

/-- The heads of the calls in a term. -/
def calls (t : Term) : List FunSym :=
  t.parts.filterMap called?

section Occurrences

variable (f : FunSym) (op : Op) (q : Quantifier) (xs : List Var) (body : Term) (args : List Term)

@[simp]
theorem symbols_call : (Term.call f args).symbols = .fn f.id :: args.flatMap symbols := by
  rw [symbols, parts_call, List.flatMap_cons, List.flatMap_assoc]
  rfl

@[simp]
theorem symbols_node : (Term.node op args).symbols = args.flatMap symbols := by
  rw [symbols, parts_node, List.flatMap_cons, List.flatMap_assoc]
  rfl

@[simp]
theorem symbols_quant :
    (Term.quant q xs body).symbols = xs.map (.var ·.id) ++ body.symbols := by
  rw [symbols, parts_quant, List.flatMap_cons]
  rfl

@[simp]
theorem calls_call : (Term.call f args).calls = f :: args.flatMap calls := by
  have h : called? (.call f args) = some f := rfl
  rw [calls, parts_call, List.filterMap_cons_some h, List.filterMap_flatMap]
  rfl

@[simp]
theorem calls_node : (Term.node op args).calls = args.flatMap calls := by
  rw [calls, parts_node, List.filterMap_cons_none rfl, List.filterMap_flatMap]
  rfl

@[simp]
theorem calls_quant : (Term.quant q xs body).calls = body.calls := by
  rw [calls, parts_quant, List.filterMap_cons_none rfl]
  rfl

end Occurrences

/-- The heads of calls are function symbols of the term. -/
theorem mem_funs_of_mem_calls {f : FunSym} {t : Term} (h : f ∈ t.calls) : f ∈ t.funs := by
  rw [calls, List.mem_filterMap] at h
  rw [funs, List.mem_filterMap]
  obtain ⟨p, hp, hf⟩ := h
  cases p with
  | call g args => exact ⟨_, hp, hf⟩
  | _ => simp [called?] at hf

theorem calls_mapSymbols (v : Var → Var) (g : FunSym → FunSym) (t : Term) :
    (t.mapSymbols v g).calls = t.calls.map g := by
  have hcalled : ∀ p : Term, (p.mapSymbols v g).called? = p.called?.map g := by
    intro p
    cases p <;> simp [called?]
  rw [calls, calls, parts_mapSymbols, List.filterMap_map, List.map_filterMap]
  exact congrArg (List.filterMap · t.parts) (funext hcalled)

/-- The symbols of the result, if the exchange is one of symbols by symbols of their sort. -/
theorem symbols_mapSymbols {v : Var → Var} {g : FunSym → FunSym} {m : Symbol → Symbol}
    (hv : ∀ x : Var, .var (v x).id = m (.var x.id)) (hg : ∀ f : FunSym, .fn (g f).id = m (.fn f.id))
    (t : Term) : (t.mapSymbols v g).symbols = t.symbols.map m := by
  have htop : ∀ p : Term, (p.mapSymbols v g).topSymbols = p.topSymbols.map m := by
    intro p
    cases p <;> simp [topSymbols, hv, hg]
  rw [symbols, symbols, parts_mapSymbols, List.flatMap_map, List.map_flatMap]
  exact congrArg (List.flatMap · t.parts) (funext htop)

/-! ### Skeletons -/

/-- The term with all its function symbols taken for declared ones. -/
def eraseOrigins (t : Term) : Term :=
  t.mapSymbols id fun f => ⟨f.id, .declared⟩

/-- What is left of a term when all its symbols are made the same. -/
def skeleton (t : Term) : Term :=
  t.mapSymbols (fun _ => ⟨0⟩) fun _ => ⟨0, .declared⟩

/-- Exchanging symbols leaves the skeleton alone. -/
@[simp]
theorem skeleton_mapSymbols (v : Var → Var) (g : FunSym → FunSym) (t : Term) :
    (t.mapSymbols v g).skeleton = t.skeleton := by
  rw [skeleton, mapSymbols_mapSymbols]
  rfl

@[simp]
theorem skeleton_eraseOrigins (t : Term) : t.eraseOrigins.skeleton = t.skeleton :=
  skeleton_mapSymbols ..

@[simp]
theorem symbols_eraseOrigins (t : Term) : t.eraseOrigins.symbols = t.symbols := by
  have h := symbols_mapSymbols (v := id) (g := fun f => ⟨f.id, .declared⟩) (m := id) (fun _ => rfl)
    (fun _ => rfl) t
  rw [eraseOrigins, h, List.map_id]

/-- The skeleton tells at which places variables stand, and at which function symbols. -/
theorem sorts_skeleton (t : Term) : t.skeleton.symbols.map Symbol.isVar =
    t.symbols.map Symbol.isVar := by
  have hsorts : ∀ s : Symbol, (if s.isVar then Symbol.var 0 else .fn 0).isVar = s.isVar := by
    rintro (id | id) <;> rfl
  rw [skeleton, symbols_mapSymbols (m := fun s => if s.isVar then .var 0 else .fn 0) (fun _ => rfl)
    fun _ => rfl, List.map_map]
  exact List.map_congr_left fun s _ => hsorts s

/-- Terms of one skeleton have as many symbols. -/
theorem length_symbols_eq {s t : Term} (h : s.skeleton = t.skeleton) :
    s.symbols.length = t.symbols.length := by
  have hlength := congrArg List.length (sorts_skeleton s)
  rw [h, sorts_skeleton t] at hlength
  simpa using hlength.symm

/-- What two lists of terms have in common is told place by place. -/
theorem map_eraseOrigins_eq {ss ts : List Term}
    (h : ∀ s ∈ ss, ∀ t : Term, s.skeleton = t.skeleton → s.symbols = t.symbols →
      s.eraseOrigins = t.eraseOrigins)
    (hskel : ss.map skeleton = ts.map skeleton)
    (hsym : ss.flatMap symbols = ts.flatMap symbols) :
    ss.map eraseOrigins = ts.map eraseOrigins := by
  induction ss generalizing ts with
  | nil =>
    obtain rfl : ts = [] := by simpa using hskel.symm
    rfl
  | cons s ss ih =>
    cases ts with
    | nil => simp at hskel
    | cons t ts =>
      rw [List.forall_mem_cons] at h
      rw [List.map_cons, List.map_cons, List.cons.injEq] at hskel
      rw [List.flatMap_cons, List.flatMap_cons] at hsym
      -- the symbols of the first terms are equally many, so the two lists part at the same place
      obtain ⟨hfirst, hrest⟩ := List.append_inj hsym (length_symbols_eq hskel.1)
      rw [List.map_cons, List.map_cons, h.1 t hskel.1 hfirst, ih h.2 hskel.2 hrest]

/-- **Skeleton and symbols make the term**, but for the origins of its function symbols. -/
theorem eraseOrigins_eq_iff {s t : Term} :
    s.eraseOrigins = t.eraseOrigins ↔ s.skeleton = t.skeleton ∧ s.symbols = t.symbols := by
  constructor
  · intro h
    refine ⟨?_, ?_⟩
    · rw [← skeleton_eraseOrigins s, h, skeleton_eraseOrigins]
    · rw [← symbols_eraseOrigins s, h, symbols_eraseOrigins]
  · rintro ⟨hskel, hsym⟩
    induction s using Term.induct generalizing t with
    | const f =>
      cases t <;> simp_all [skeleton, symbols, topSymbols, eraseOrigins]
    | var x =>
      cases t <;> simp_all [skeleton, symbols, topSymbols, eraseOrigins]
      exact congrArg Var.mk hsym
    | call f args ih =>
      cases t with
      | call g ts =>
        simp only [skeleton, mapSymbols_call, Term.call.injEq, true_and] at hskel
        rw [symbols_call, symbols_call, List.cons.injEq, Symbol.fn.injEq] at hsym
        have hargs := map_eraseOrigins_eq (fun s hs t => ih s hs) hskel hsym.2
        simp only [eraseOrigins, mapSymbols_call, hsym.1]
        exact congrArg _ hargs
      | _ => simp [skeleton] at hskel
    | node op args ih =>
      cases t with
      | node op' ts =>
        simp only [skeleton, mapSymbols_node, Term.node.injEq] at hskel
        rw [symbols_node, symbols_node] at hsym
        have hargs := map_eraseOrigins_eq (fun s hs t => ih s hs) hskel.2 hsym
        simp only [eraseOrigins, mapSymbols_node, hskel.1]
        exact congrArg _ hargs
      | _ => simp [skeleton] at hskel
    | quant q vars body ih =>
      cases t with
      | quant q' vars' body' =>
        simp only [skeleton, mapSymbols_quant, Term.quant.injEq] at hskel
        rw [symbols_quant, symbols_quant] at hsym
        have hlength : vars.length = vars'.length := by simpa using congrArg List.length hskel.2.1
        obtain ⟨hvars, hbody⟩ := List.append_inj hsym (by simpa using hlength)
        have hinj : Function.Injective fun x : Var => Symbol.var x.id := by
          rintro ⟨i⟩ ⟨j⟩ h
          simpa using h
        obtain rfl : vars = vars' := List.map_injective_iff.2 hinj hvars
        have hbody := ih hskel.2.2 hbody
        simp only [eraseOrigins, mapSymbols_quant, hskel.1]
        exact congrArg _ hbody
      | _ => simp [skeleton] at hskel
    | _ => cases t <;> simp_all [skeleton, eraseOrigins]

end Term

end ClauseForm
