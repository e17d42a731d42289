import ProgramTree.Tag

/-!
Handles: the names by which nodes refer to each other. A raw index only says which node is meant; a
handle also says as what category the node is to be entered. Neither promises that the node exists
or has that category.
-/

namespace ProgramTree

structure NodeId where
  index : Nat
  deriving DecidableEq, Repr

/-- A node together with the category it is entered as. -/
structure Handle where
  category : Category
  node : NodeId
  deriving DecidableEq, Repr

def NodeId.text (id : NodeId) : String :=
  s!"NodeId({id.index})"

def Handle.text (h : Handle) : String :=
  s!"{h.category.handleName}({h.node.index})"

/-- Handles written down are 32-bit words. -/
def NodeId.limit : Nat :=
  UInt32.size

end ProgramTree
