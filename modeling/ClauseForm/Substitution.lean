import ClauseForm.Bindings
import ClauseForm.Term.Basic

/-!
# Substitutions

A substitution (`ClauseForm.Substitution`) binds terms – in practice variables –
to terms. It is *triangular*: what a variable is bound to may mention further
bound variables, and applying the substitution
(`ClauseForm.Substitution.applyTo?`) follows these bindings to the end.

If a variable can be reached again from itself, there is no end. Each walk
through the bindings therefore carries a limit on how many bindings it follows in
a row. A walk that follows more than there are must have met some variable twice,
so with the number of bindings for a limit, the walk fails exactly where no limit
would do.
-/

namespace ClauseForm

/-- Bindings of terms to terms. Those of variables are what the substitution replaces. -/
abbrev Substitution :=
  Bindings Term Term

namespace Term

/-! ### Visiting the variables of a term

The variables that a quantifier binds are visited in its body like all others,
but not in its list of bound variables. -/

mutual

/-- A term with every occurrence of a variable replaced by what `f` says, if it says something for
each. -/
def replace? (f : Var → Option Term) : Term → Option Term
  | .var v => f v
  | .call g args => (replaceAll? f args).map (.call g)
  | .node op args => (replaceAll? f args).map (.node op)
  | .quant q vars body => (replace? f body).map (.quant q vars)
  | t => some t

/-- Several terms with every occurrence of a variable replaced by what `f` says. -/
def replaceAll? (f : Var → Option Term) : List Term → Option (List Term)
  | [] => some []
  | t :: ts =>
    match replace? f t with
    | some t => (replaceAll? f ts).map (t :: ·)
    | none => none

end

mutual

/-- Whether `p` holds of a variable that occurs in a term. The search goes from left to right and
ends with the first answer that is not `false`. -/
def anyVar? (p : Var → Option Bool) : Term → Option Bool
  | .var v => p v
  | .call _ args => anyVarAll? p args
  | .node _ args => anyVarAll? p args
  | .quant _ _ body => anyVar? p body
  | _ => some false

/-- Whether `p` holds of a variable that occurs in one of several terms. -/
def anyVarAll? (p : Var → Option Bool) : List Term → Option Bool
  | [] => some false
  | t :: ts =>
    match anyVar? p t with
    | some false => anyVarAll? p ts
    | answer => answer

end

end Term

namespace Substitution

/-- What a term is bound to, if it is a variable and bound. -/
def next? (σ : Substitution) (t : Term) : Option Term :=
  if t.isVar then σ.get? t else none

/-! ### Walks of limited length -/

/-- Follows bindings from a term, up to `limit` of them, until there is none to follow. -/
def resolveWithin (σ : Substitution) : Nat → Term → Option Term
  | 0, t => if (σ.next? t).isSome then none else some t
  | limit + 1, t =>
    match σ.next? t with
    | some s => resolveWithin σ limit s
    | none => some t

/-- Whether a variable occurs in a term or in what its variables lead to, following up to `limit`
bindings in a row. -/
def occursWithin (σ : Substitution) (v : Var) : Nat → Term → Option Bool
  | 0, t => t.anyVar? fun w =>
    if w = v then some true else if (σ.next? (.var w)).isSome then none else some false
  | limit + 1, t => t.anyVar? fun w =>
    if w = v then some true
    else
      match σ.next? (.var w) with
      | some s => occursWithin σ v limit s
      | none => some false

/-- Replaces every bound variable of a term by what it leads to, following up to `limit` bindings
in a row. -/
def applyWithin (σ : Substitution) : Nat → Term → Option Term
  | 0, t => t.replace? fun v => if (σ.next? (.var v)).isSome then none else some (.var v)
  | limit + 1, t => t.replace? fun v =>
    match σ.next? (.var v) with
    | some s => applyWithin σ limit s
    | none => some (.var v)

/-! ### Walks to the end -/

/-- How many bindings a walk may follow in a row: as many as there are. -/
def limit (σ : Substitution) : Nat :=
  σ.chain.length

/-- The term that a term leads to: itself, or, if it is a bound variable, the first term down its
chain of bindings that is not one. -/
def resolve? (σ : Substitution) (t : Term) : Option Term :=
  σ.resolveWithin σ.limit t

/-- Whether a variable occurs in a term, seen through the bindings. -/
def occurs? (σ : Substitution) (v : Var) (t : Term) : Option Bool :=
  σ.occursWithin v σ.limit t

/-- The term with every bound variable replaced by its binding, and those of the binding in turn.
Nothing comes of it exactly when some variable of the term leads back to itself. -/
def applyTo? (σ : Substitution) (t : Term) : Option Term :=
  σ.applyWithin σ.limit t

end Substitution

end ClauseForm
