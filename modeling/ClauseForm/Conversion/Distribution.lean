import ClauseForm.Conversion.State

/-!
# Conjunctions above disjunctions

`ClauseForm.raiseAnds` turns a formula made of literals, `&` and `|` into a
conjunction of disjunctions. A disjunction over one conjunction is distributed
over it (`ClauseForm.Term.distribute`). Over two or more, that would multiply
them out; so each of them is given a name instead, of which it need only be said
that the name implies it, and this goes the way of a formula of its own: the
parameter `define`.

`ClauseForm.Term.flatten` lists what stands below nested nodes of one operator. It
works through a list of terms, so that deep nesting costs no deep recursion.
-/

namespace ClauseForm

namespace Term

/-! ### Flattening -/

mutual

/-- The number of steps that flattening a term takes at most. -/
def flattenCost : Term → Nat
  | .node _ args => 1 + flattenCostAll args
  | _ => 1

/-- The number of steps that flattening several terms takes at most. -/
def flattenCostAll : List Term → Nat
  | [] => 0
  | t :: ts => flattenCost t + flattenCostAll ts

end

theorem flattenCostAll_append (ss ts : List Term) :
    flattenCostAll (ss ++ ts) = flattenCostAll ss + flattenCostAll ts := by
  induction ss with
  | nil => simp [flattenCostAll]
  | cons s ss ih => simp [flattenCostAll, ih, Nat.add_assoc]

theorem flattenCost_pos (t : Term) : 0 < flattenCost t := by
  cases t with
  | node op args =>
    rw [flattenCost]
    omega
  | _ => exact Nat.one_pos

/-- The terms found so far, newest first, followed by those that stand below the nodes of `op` in
the terms still to be looked at. -/
def flattenLoop (op : Op) : List Term → List Term → List Term
  | [], found => found.reverse
  | .node o args :: rest, found =>
    if o = op then flattenLoop op (args ++ rest) found
    else flattenLoop op rest (.node o args :: found)
  | t :: rest, found => flattenLoop op rest (t :: found)
termination_by todo => flattenCostAll todo
decreasing_by
  · simp only [flattenCostAll, flattenCostAll_append, flattenCost]
    omega
  · simp only [flattenCostAll, flattenCost]
    omega
  · have := flattenCost_pos t
    simp only [flattenCostAll]
    omega

/-- The terms that stand below the nested nodes of `op` at the top of a term, from left to right;
the term itself if `op` is not on top. -/
def flatten (op : Op) (t : Term) : List Term :=
  flattenLoop op [t] []

/-! ### Distributing -/

/-- The disjunction of `args`, distributed over the conjunction at place `i`: one disjunction for
each of its members, with the member in the place of the conjunction. -/
def distribute (args : List Term) (i : Fin args.length) : Term :=
  .conj ((flatten .and args[i]).map fun member => .disj (args.set i member))

end Term

/-- The name of a conjunction; a formula that is none stays as it is. -/
def nameConjunction (define : Term → ConvertM Unit) (t : Term) : ConvertM Term := do
  if t.isOp .and then
    let atom ← ConvertM.nameFor t
    define (.imp atom t)
    return atom
  else return t

/-- The disjunction of formulas in which the conjunctions stand on top: distributed if one of them
is a conjunction, and with names for the conjunctions if several are. -/
def disjoin (define : Term → ConvertM Unit) (args : List Term) : ConvertM Term := do
  if args.countP (·.isOp .and) ≤ 1 then
    match args.findFinIdx? (·.isOp .and) with
    | none => return .disj args
    | some i => return .distribute args i
  else
    return .disj (← args.mapM (nameConjunction define))

mutual

/-- The formula with its conjunctions raised above its disjunctions. -/
def raiseAnds (define : Term → ConvertM Unit) : Term → ConvertM Term
  | .node .and args => return .conj (← raiseAndsAll define args)
  | .node .or args => do disjoin define (← raiseAndsAll define args)
  | t => return t

/-- Several formulas with their conjunctions raised above their disjunctions, from left to right. -/
def raiseAndsAll (define : Term → ConvertM Unit) : List Term → ConvertM (List Term)
  | [] => return []
  | t :: ts => do
    let t ← raiseAnds define t
    return t :: (← raiseAndsAll define ts)

end

end ClauseForm
