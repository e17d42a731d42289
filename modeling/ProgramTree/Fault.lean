import ProgramTree.Handle

/-!
The ways in which a pass over a tree can fail. All of them are errors of the compiler itself and not
of the program it compiles.
-/

namespace ProgramTree

inductive Fault where
  /-- A node was entered as a category that is not its own. -/
  | unknownNode (category : Category) (node : NodeId) (found : Tag)
  /-- A node was read as a variant that it is not. -/
  | variantMismatch (node : NodeId) (expected found : Tag)
  /-- A handle names no node of an arena of `size` nodes. -/
  | danglingHandle (node : NodeId) (size : Nat)
  /-- A transformation was still changing the tree after its last round. -/
  | noFixedPoint (rounds : Nat)
  deriving DecidableEq, Repr

namespace Fault

def kind : Fault → String
  | unknownNode .. => "UnknownNode"
  | variantMismatch .. => "VariantMismatch"
  | danglingHandle .. => "DanglingHandle"
  | noFixedPoint .. => "NoFixedPoint"

def node? : Fault → Option NodeId
  | unknownNode _ node _ | variantMismatch node _ _ | danglingHandle node _ => some node
  | noFixedPoint _ => none

def message : Fault → String
  | unknownNode category node found =>
    s!"internal compiler error: unknown AST {category.name}: {node.text} is tagged `{found.name}`"
  | variantMismatch node expected found =>
    s!"internal compiler error: expected `{expected.name}` at {node.text}, found `{found.name}`"
  | danglingHandle node size =>
    s!"internal compiler error: {node.text} is outside the arena ({size} nodes)"
  | noFixedPoint rounds =>
    s!"internal compiler error: rewriting did not reach a fixed point after {rounds} rounds"

end Fault

end ProgramTree
