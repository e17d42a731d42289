/-!
Finite types whose values are written by name: variant tags, operators and the other fixed word
lists of the tree. A name is read back by searching the list of all values.
-/

namespace ProgramTree

/-- A finite type with a name for each value. -/
class Named (α : Type) where
  all : List α
  name : α → String

namespace Named

variable {α : Type} [Named α]

def ofName? (s : String) : Option α :=
  (all : List α).find? fun a => name a == s

end Named

end ProgramTree
