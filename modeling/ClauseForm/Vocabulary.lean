import ClauseForm.Symbol

/-!
# The vocabulary: who allots symbols, and the names they are shown under

A `ClauseForm.Vocabulary` hands out variables and function symbols one after the
other, each under a number that was never handed out before, and remembers an
optional name for each. Names serve display alone. A vocabulary only ever grows,
so a symbol that was allotted keeps its name
(`ClauseForm.Vocabulary.varName?_newVar`, `ClauseForm.Vocabulary.funName?_newFun`).

The numbers are meant for words of 32 bits, and there is no check that they fit. So
what is said of symbols here is said for fewer than `2 ^ 32` variables and fewer than
`2 ^ 32` function symbols; the words would begin with zero again after these.
-/

namespace ClauseForm

/-- The symbols allotted so far, with the names they are shown under. -/
structure Vocabulary where
  /-- The name of each variable, in the order of allotment. -/
  vars : Array (Option String) := #[]
  /-- The name of each function symbol, in the order of allotment. -/
  funs : Array (Option String) := #[]
deriving DecidableEq, Repr, Inhabited

namespace Vocabulary

/-! ### Names -/

/-- The name of a variable, if it was allotted with one. -/
def varName? (voc : Vocabulary) (v : Var) : Option String :=
  voc.vars[v.id]?.join

/-- The name of a function symbol, if it was allotted with one. Its origin plays no part. -/
def funName? (voc : Vocabulary) (f : FunSym) : Option String :=
  voc.funs[f.id]?.join

/-- The text of a variable: its name, or else its number. -/
def varText (voc : Vocabulary) (v : Var) : String :=
  (voc.varName? v).getD s!"V{v.id}"

/-- The text of a function symbol: its name, or else its number. -/
def funText (voc : Vocabulary) (f : FunSym) : String :=
  (voc.funName? f).getD s!"F{f.id}"

/-! ### Allotting symbols -/

/-- Allots a new variable. Its number fits a word as long as fewer than `2 ^ 32` variables were
allotted before. -/
def newVar (voc : Vocabulary) (name : Option String) : Var × Vocabulary :=
  (⟨voc.vars.size⟩, { voc with vars := voc.vars.push name })

/-- Allots a new variable that is shown like `v`. Its number fits a word under the same
condition. -/
def freshLike (voc : Vocabulary) (v : Var) : Var × Vocabulary :=
  voc.newVar (voc.varName? v)

/-- Allots a new function symbol of the given origin. Its number fits a word as long as fewer than
`2 ^ 32` function symbols were allotted before. -/
def newFun (voc : Vocabulary) (name : Option String) (origin : Origin) : FunSym × Vocabulary :=
  (⟨voc.funs.size, origin⟩, { voc with funs := voc.funs.push name })

/-! ### What was allotted before keeps its name -/

@[simp]
theorem vars_newVar (voc : Vocabulary) (name : Option String) :
    (voc.newVar name).2.vars = voc.vars.push name := rfl

@[simp]
theorem funs_newVar (voc : Vocabulary) (name : Option String) :
    (voc.newVar name).2.funs = voc.funs := rfl

@[simp]
theorem vars_newFun (voc : Vocabulary) (name : Option String) (origin : Origin) :
    (voc.newFun name origin).2.vars = voc.vars := rfl

@[simp]
theorem funs_newFun (voc : Vocabulary) (name : Option String) (origin : Origin) :
    (voc.newFun name origin).2.funs = voc.funs.push name := rfl

/-- Allotting a variable leaves the names of the earlier ones alone. -/
theorem varName?_newVar {voc : Vocabulary} {name : Option String} {v : Var}
    (h : v.id < voc.vars.size) : (voc.newVar name).2.varName? v = voc.varName? v := by
  simp [varName?, Array.getElem?_push, Nat.ne_of_lt h]

/-- Allotting a function symbol leaves the names of the earlier ones alone. -/
theorem funName?_newFun {voc : Vocabulary} {name : Option String} {origin : Origin} {f : FunSym}
    (h : f.id < voc.funs.size) : (voc.newFun name origin).2.funName? f = voc.funName? f := by
  simp [funName?, Array.getElem?_push, Nat.ne_of_lt h]

end Vocabulary

end ClauseForm
