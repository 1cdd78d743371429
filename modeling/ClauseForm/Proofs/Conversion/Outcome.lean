import ClauseForm.Proofs.Conversion.Correct

/-!
# What a run has come to

The other way round than `ClauseForm.ConvertM.Ensures`: here a step of a conversion is known
to have come to an end, and what it did on the way is read off.
-/

namespace ClauseForm

/-- The clauses that a formula is made of: what stands below its conjunctions, each flattened to
what stands below the disjunctions. -/
def Term.clauseList (t : Term) : List Clause :=
  (t.leaves .and).map fun d => ⟨d.leaves .or⟩

/-- A conversion without its journal. -/
def Conversion.quiet (s : Conversion) : Conversion :=
  { s with journal := none }

namespace ConvertM

variable {α β : Type} {s s' : Conversion}

/-- A run of two steps is a run of the first and then one of the second. -/
theorem bind_eq_ok {x : ConvertM α} {f : α → ConvertM β} {b : β} :
    (x >>= f) s = .ok b s' ↔ ∃ a s₁, x s = .ok a s₁ ∧ f a s₁ = .ok b s' := by
  change EStateM.bind x f s = _ ↔ _
  rw [EStateM.bind]
  cases x s with
  | ok a s₁ =>
    constructor
    · exact fun h => ⟨a, s₁, rfl, h⟩
    · rintro ⟨_, _, heq, h⟩
      cases heq
      exact h
  | error fault s₁ =>
    constructor
    · exact fun h => by cases h
    · rintro ⟨_, _, heq, -⟩
      cases heq

/-- An answer leaves the state alone. -/
theorem pure_eq_ok {a b : α} : (pure a : ConvertM α) s = .ok b s' ↔ a = b ∧ s = s' := by
  change EStateM.Result.ok a s = _ ↔ _
  simp

/-- A computation that needs no state leaves it alone. -/
theorem ofExcept_eq_ok {x : Except Fault α} {a : α} :
    ofExcept x s = .ok a s' ↔ x = .ok a ∧ s = s' := by
  cases x with
  | ok b =>
    rw [ofExcept, pure_eq_ok]
    simp
  | error fault =>
    constructor
    · exact fun h => by cases h
    · exact fun h => by cases h.1

/-! ### Events -/

/-- What an event does to a state. -/
theorem report_eq (e : Event) (s : Conversion) : report e s =
    match s.journal with
    | none => .ok () s
    | some entries =>
      match e.entry s.vocabulary with
      | .ok entry => .ok () { s with journal := some (entries ++ [entry]) }
      | .error fault => .error fault s := by
  have hget : ∀ f : Conversion → ConvertM Unit, (get >>= f) s = f s s := fun _ => rfl
  unfold report
  rw [hget]
  cases s.journal with
  | none => rfl
  | some entries => cases e.entry s.vocabulary <;> rfl

/-- Where no journal is kept, an event changes nothing. -/
theorem report_of_quiet (h : s.journal = none) (e : Event) : report e s = .ok () s := by
  rw [report_eq, h]

/-- An event changes nothing but the journal. -/
theorem eq_of_report {e : Event} {a : Unit} (h : report e s = .ok a s') :
    s' = { s with journal := s'.journal } := by
  rw [report_eq] at h
  split at h
  · cases h
    rfl
  · split at h
    · cases h
      rfl
    · cases h

/-- An event that has an entry can be entered. -/
theorem exists_report {e : Event} {entry : Entry} (h : e.entry s.vocabulary = .ok entry) :
    ∃ s', report e s = .ok () s' := by
  rw [report_eq, h]
  split
  · exact ⟨s, rfl⟩
  · exact ⟨_, rfl⟩

/-! ### Gathering clauses -/

/-- Without simplification, a clause is gathered as it is. -/
theorem gatherClause_of_plain (hs : s.config.simplify = false) (c : Clause) :
    gatherClause c s = .ok () { s with clauses := s.clauses ++ [c] } := by
  unfold gatherClause
  exact bind_eq_ok.2 ⟨s, s, rfl, by rw [hs]; rfl⟩

/-- So are several clauses, one after the other. -/
theorem forM_gatherClause (hs : s.config.simplify = false) (cs : List Clause) :
    cs.forM gatherClause s = .ok () { s with clauses := s.clauses ++ cs } := by
  induction cs generalizing s with
  | nil =>
    rw [List.append_nil]
    rfl
  | cons c cs ih =>
    have hrest := ih (s := { s with clauses := s.clauses ++ [c] }) hs
    rw [List.append_assoc, List.singleton_append] at hrest
    exact bind_eq_ok.2 ⟨(), _, gatherClause_of_plain hs c, hrest⟩

/-- **Without simplification, the clauses gathered are those that the formula is made of.** -/
theorem gatherClauses_of_plain (hs : s.config.simplify = false) (t : Term) :
    gatherClauses t s = .ok () { s with clauses := s.clauses ++ t.clauseList } := by
  rw [← forM_gatherClause hs, gatherClauses, Term.clauseList, Term.flatten_eq_leaves]
  simp only [List.forM_eq_forM, List.forM_map, Term.flatten_eq_leaves]

/-! ### Adding a formula -/

/-- Adds the clauses of a closed formula, and reports that. -/
def addClosed (before : Nat) (closed : Term) : ConvertM Unit := do
  report (.converting closed)
  convertWithin nestingLimit closed
  let total := (← get).clauses.length
  report (.produced (total - before) total)

/-- Where no journal is kept, that a conversion begins is not said. -/
theorem addClosed_of_quiet (hs : s.journal = none) (before : Nat) (t : Term) :
    addClosed before t s = (do
      convertWithin nestingLimit t
      let total := (← get).clauses.length
      report (.produced (total - before) total) : ConvertM Unit) s := by
  change EStateM.bind (report (.converting t)) _ s = _
  rw [EStateM.bind, report_of_quiet hs]

/-- Adding a formula is adding the closure of what it is prepared to. -/
theorem add_eq_addClosed {t u : Term} (h : prepared s.config t = .ok u) :
    add t s = addClosed s.clauses.length u.universalClosure s := by
  unfold prepared at h
  change (do
    let formula ← if s.config.simplify then ofExcept (t.evaluate .empty) else pure t
    addClosed s.clauses.length formula.universalClosure : ConvertM Unit) s = _
  split at h
  · rename_i hsimplify
    rw [if_pos hsimplify, h]
    rfl
  · rename_i hsimplify
    rw [if_neg hsimplify, pure_bind, Except.ok.inj h]

/-- Where nothing is simplified, that is the formula itself. -/
theorem add_of_plain (t : Term) (h : s.config.simplify = false) :
    add t s = addClosed s.clauses.length t.universalClosure s := by
  refine add_eq_addClosed ?_
  rw [prepared, h]
  rfl

end ConvertM

end ClauseForm
