import ClauseForm.Number.Format
import ClauseForm.Term.Basic
import ClauseForm.Vocabulary

/-!
# Terms as text

The text of a term (`ClauseForm.Term.text`) under a vocabulary, which supplies the
names of its symbols. A symbol without a name is shown by its number, so the
empty vocabulary gives the text that tells all symbols apart. How numbers are
written is a matter of their format (`ClauseForm.Term.textBy`).

Operators stand between their arguments, in parentheses; the one exception is
`~`, which stands before its first argument and has no text without one.
-/

namespace ClauseForm

namespace Term

mutual

/-- The text of a term under a vocabulary, with numbers in a given format. -/
def textBy (F : NumberFormat) (voc : Vocabulary) : Term → Except Fault String
  | .bool true => .ok "$true"
  | .bool false => .ok "$false"
  | .object name => .ok s!"\"{name}\""
  | .integer n => .ok (F.integerText n)
  | .rational x => .ok (F.rationalText x)
  | .real x => .ok (F.realText x)
  | .const f => .ok (voc.funText f)
  | .var v => .ok (voc.varText v)
  | .call f args => do
    let shown ← textAllBy F voc args
    return voc.funText f ++ "(" ++ ",".intercalate shown ++ ")"
  | .node .not [] => .error (.missingArgument 0 0)
  | .node .not (t :: _) => do return "~" ++ (← textBy F voc t)
  | .node op [] => .ok (op.symbol ++ "()")
  | .node op args => do
    let shown ← textAllBy F voc args
    return "(" ++ (" " ++ op.symbol ++ " ").intercalate shown ++ ")"
  | .quant q vars body => do
    let shown ← textBy F voc body
    return q.symbol ++ "[" ++ ",".intercalate (vars.map voc.varText) ++ "]: " ++ shown

/-- The texts of several terms. -/
def textAllBy (F : NumberFormat) (voc : Vocabulary) : List Term → Except Fault (List String)
  | [] => .ok []
  | t :: ts => do return (← textBy F voc t) :: (← textAllBy F voc ts)

end

/-- The text of a term under a vocabulary, with numbers in base ten. -/
def text (voc : Vocabulary) : Term → Except Fault String :=
  textBy .baseTen voc

/-- The texts of several terms, with numbers in base ten. -/
def textAll (voc : Vocabulary) : List Term → Except Fault (List String) :=
  textAllBy .baseTen voc

end Term

end ClauseForm
