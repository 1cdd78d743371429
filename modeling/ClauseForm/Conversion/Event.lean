import ClauseForm.Term.Show

/-!
# What a conversion reports

While a formula is converted, the intermediate forms can be watched: every
`ClauseForm.Event` becomes an entry of a journal (`ClauseForm.Entry`), a line of
text with a level of importance. The terms in the line are shown under the
vocabulary of that moment, so a symbol that is allotted only later is still shown
by its number.
-/

namespace ClauseForm

/-- How important an entry of the journal is. -/
inductive Level where
  /-- One entry at each end of a conversion. -/
  | debug
  /-- Entries for the steps between. -/
  | trace
deriving DecidableEq, Repr

/-- What a conversion reports. -/
inductive Event where
  /-- A closed formula is about to be converted. -/
  | converting (formula : Term)
  /-- A formula was brought into negation normal form. -/
  | normalized (formula : Term)
  /-- An atom was introduced as the name of a formula. -/
  | defining (atom formula : Term)
  /-- A formula was brought into conjunctive form. -/
  | distributed (formula : Term)
  /-- A conversion is over, so many clauses having come of it, and so many being there by now. -/
  | produced (new total : Nat)
deriving DecidableEq, Repr

/-- An entry of the journal: what is reported, in a line of text. -/
structure Entry where
  /-- What is reported. -/
  event : Event
  /-- How important that is. -/
  level : Level
  /-- The line. -/
  text : String
deriving DecidableEq, Repr

namespace Event

/-- How important an event is. -/
def level : Event → Level
  | converting _ | produced _ _ => .debug
  | normalized _ | defining _ _ | distributed _ => .trace

/-- The line that an event makes. -/
def text (voc : Vocabulary) : Event → Except Fault String
  | converting t => do return "Converting " ++ (← t.text voc)
  | normalized t => do return "NNF: " ++ (← t.text voc)
  | defining a t => do
    let name ← a.text voc
    return "Defining " ++ name ++ " as " ++ (← t.text voc)
  | distributed t => do return "CNF: " ++ (← t.text voc)
  | produced new total => .ok s!"Produced {new} clause(s), {total} in total"

/-- The entry that an event makes in the journal. -/
def entry (voc : Vocabulary) (e : Event) : Except Fault Entry := do
  return ⟨e, e.level, ← e.text voc⟩

end Event

end ClauseForm
