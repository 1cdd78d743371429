import ClauseForm.Bindings

/-!
# Bindings as text

All bindings between braces, the oldest first, each a key and a value with a
colon between them.
-/

namespace ClauseForm

namespace Bindings

/-- The text of a chain of bindings, given the texts of keys and values. -/
def text {κ ν : Type} (keyText : κ → String) (valueText : ν → String) (b : Bindings κ ν) : String :=
  "\x7b" ++ ", ".intercalate (b.toList.map fun p => keyText p.1 ++ ": " ++ valueText p.2) ++ "\x7d"

end Bindings

end ClauseForm
