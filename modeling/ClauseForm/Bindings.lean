/-!
# Bindings

A chain of bindings of keys to values (`ClauseForm.Bindings`), the newest in
front. Adding a binding leaves the older ones in place behind it: the newest
binding of a key is the one that counts (`ClauseForm.Bindings.get?`), and the
others come to light again only in the listing
(`ClauseForm.Bindings.toList`, the oldest first).

One type serves for the scopes of quantifiers, for substitutions and for
renamings.
-/

namespace ClauseForm

/-- A chain of bindings, the newest first, with its length beside it. -/
structure Bindings (κ ν : Type) where
  /-- The bindings, the newest first. -/
  chain : List (κ × ν) := []
  /-- How many bindings there are. -/
  size : Nat := 0
deriving DecidableEq, Repr

namespace Bindings

variable {κ ν : Type}

instance : Inhabited (Bindings κ ν) :=
  ⟨{}⟩

/-- No bindings. -/
def empty : Bindings κ ν :=
  {}

/-- The bindings `b` with one more in front, which hides the older ones of its key. -/
def add (b : Bindings κ ν) (key : κ) (value : ν) : Bindings κ ν :=
  ⟨(key, value) :: b.chain, b.size + 1⟩

/-- The bindings of a list, added in its order. -/
def ofList (pairs : List (κ × ν)) : Bindings κ ν :=
  pairs.foldl (fun b p => b.add p.1 p.2) empty

/-- Whether there are no bindings. -/
def isEmpty (b : Bindings κ ν) : Bool :=
  b.chain.isEmpty

/-- All bindings, hidden ones included, the oldest first. -/
def toList (b : Bindings κ ν) : List (κ × ν) :=
  b.chain.reverse

/-- The keys of all bindings, the oldest first. -/
def keys (b : Bindings κ ν) : List κ :=
  b.toList.map Prod.fst

/-- The values of all bindings, the oldest first. -/
def values (b : Bindings κ ν) : List ν :=
  b.toList.map Prod.snd

section Lookup

variable [DecidableEq κ]

/-- The value of the newest binding of a key. -/
def get? (b : Bindings κ ν) (key : κ) : Option ν :=
  b.chain.lookup key

/-- Whether a key is bound. -/
def contains (b : Bindings κ ν) (key : κ) : Bool :=
  (b.get? key).isSome

/-- Parts a chain at the oldest binding of a key: in front of it, the oldest first, what is bound
to other keys, and behind it the rest of the chain untouched. The walk carries what it met since the
last binding of the key, what it met before that, and the chain behind that binding. -/
def partAt (key : κ) (recent kept rest : List (κ × ν)) :
    List (κ × ν) → List (κ × ν) × List (κ × ν)
  | [] => (kept, rest)
  | p :: chain =>
    if p.1 = key then partAt key [] (recent ++ kept) chain chain
    else partAt key (p :: recent) kept rest chain

/-- The bindings without those of a key. The chain behind the oldest of them is shared, so that
only what is newer is built anew; if there are none, all of it is shared. -/
def remove (b : Bindings κ ν) (key : κ) : Bindings κ ν :=
  if b.contains key then
    let parts := partAt key [] [] b.chain b.chain
    parts.1.foldl (fun b p => b.add p.1 p.2) ⟨parts.2, parts.2.length⟩
  else b

end Lookup

/-! ### What the operations do to the listing -/

@[simp]
theorem toList_empty : (empty : Bindings κ ν).toList = [] := rfl

@[simp]
theorem toList_add (b : Bindings κ ν) (key : κ) (value : ν) :
    (b.add key value).toList = b.toList ++ [(key, value)] := by
  simp [toList, add]

/-! ### What the operations do to lookup -/

section Lookup

variable [DecidableEq κ]

@[simp]
theorem get?_empty (key : κ) : (empty : Bindings κ ν).get? key = none := rfl

/-- The newest binding of a key counts. -/
@[simp]
theorem get?_add_self (b : Bindings κ ν) (key : κ) (value : ν) :
    (b.add key value).get? key = some value := by
  simp [get?, add]

/-- A binding of another key does not matter. -/
theorem get?_add_of_ne {b : Bindings κ ν} {key other : κ} {value : ν} (h : other ≠ key) :
    (b.add key value).get? other = b.get? other := by
  simp [get?, add, List.lookup_cons, beq_eq_false_iff_ne.2 h]

end Lookup

end Bindings

end ClauseForm
