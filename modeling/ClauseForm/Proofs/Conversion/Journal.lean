import ClauseForm.Proofs.Conversion.Outcome

/-!
# Names in the journal

That a formula is given a name is an event (`ClauseForm.Event.defining`). So a conversion of
which a journal is kept tells itself which names it introduces and for which formulas
(`ClauseForm.Entry.namings`). What was entered from one state to another
(`ClauseForm.Conversion.Enters`) is what the steps between entered, in their order.
-/

namespace ClauseForm

/-- The name that an event introduces, with the formula that it is the name of. -/
def Event.naming? : Event → Option (Term × Term)
  | .defining atom formula => some (atom, formula)
  | _ => none

/-- An entry keeps the event that made it. -/
theorem Event.event_of_entry {voc : Vocabulary} {e : Event} {entry : Entry}
    (h : e.entry voc = .ok entry) : entry.event = e := by
  unfold Event.entry at h
  cases htext : e.text voc with
  | ok text =>
    rw [htext] at h
    cases h
    rfl
  | error fault =>
    rw [htext] at h
    cases h

/-- The names that the entries of a journal introduce, from first to last, each with the formula
that it is the name of. -/
def Entry.namings (entries : List Entry) : List (Term × Term) :=
  entries.filterMap fun entry => entry.event.naming?

/-- The names of formulas that are numbered from `n` on, each with its formula: a name stands over
the free variables of the formula. -/
def namesFrom (n : Nat) (gs : List Term) : List (Term × Term) :=
  (gs.zipIdx n).map fun p =>
    (FunSym.appliedTo ⟨p.2, .definition⟩ (p.1.freeVars.map .var), p.1)

theorem namesFrom_cons (n : Nat) (g : Term) (gs : List Term) : namesFrom n (g :: gs) =
    (FunSym.appliedTo ⟨n, .definition⟩ (g.freeVars.map .var), g) :: namesFrom (n + 1) gs :=
  rfl

theorem namesFrom_append (n : Nat) (gs hs : List Term) :
    namesFrom n (gs ++ hs) = namesFrom n gs ++ namesFrom (n + gs.length) hs := by
  rw [namesFrom, List.zipIdx_append, List.map_append]
  rfl

theorem length_namesFrom (n : Nat) (gs : List Term) : (namesFrom n gs).length = gs.length := by
  rw [namesFrom, List.length_map, List.length_zipIdx]

/-- The names are numbered one after the other. -/
theorem getElem?_namesFrom {n k : Nat} {gs : List Term} {name g : Term}
    (h : (namesFrom n gs)[k]? = some (name, g)) : gs[k]? = some g ∧
      name = FunSym.appliedTo ⟨n + k, .definition⟩ (g.freeVars.map .var) := by
  rw [namesFrom, List.getElem?_map, List.getElem?_zipIdx, Option.map_map] at h
  obtain ⟨g', hg, heq⟩ := Option.map_eq_some_iff.1 h
  cases heq
  exact ⟨hg, rfl⟩

namespace Conversion

variable {s s' s'' : Conversion} {names names' : List (Term × Term)}

/-- If a journal is kept, then from one state to another the given names were entered in it. -/
def Enters (s s' : Conversion) (names : List (Term × Term)) : Prop :=
  ∀ before, s.journal = some before →
    ∃ entries, s'.journal = some (before ++ entries) ∧ Entry.namings entries = names

/-- No name was entered where the journal is the same. -/
theorem Enters.of_eq (h : s'.journal = s.journal) : s.Enters s' [] :=
  fun before hbefore => ⟨[], by rw [h, hbefore, List.append_nil], rfl⟩

theorem Enters.trans (h : s.Enters s' names) (h' : s'.Enters s'' names') :
    s.Enters s'' (names ++ names') := by
  intro before hbefore
  obtain ⟨entries, hentries, rfl⟩ := h before hbefore
  obtain ⟨entries', hentries', rfl⟩ := h' _ hentries
  exact ⟨entries ++ entries', by rw [hentries', List.append_assoc], List.filterMap_append⟩

end Conversion

/-- An event enters the name that it introduces, if it introduces one. -/
theorem ConvertM.enters_of_report {e : Event} {s s' : Conversion} {a : Unit}
    (h : report e s = .ok a s') : s.Enters s' e.naming?.toList := by
  intro before hbefore
  rw [report_eq, hbefore] at h
  cases hentry : e.entry s.vocabulary with
  | ok entry =>
    rw [hentry] at h
    cases h
    refine ⟨[entry], rfl, ?_⟩
    rw [Entry.namings, List.filterMap_cons, Event.event_of_entry hentry]
    cases e.naming? <;> rfl
  | error fault =>
    rw [hentry] at h
    cases h

end ClauseForm
