import ProgramTree.Fault

/-!
The log of a pass: what the engines report while they run, and how each report is written.
-/

namespace ProgramTree

inductive Activity where
  | traverse
  | transform
  | settle
  deriving DecidableEq, Repr

def Activity.name : Activity → String
  | traverse => "traverse"
  | transform => "rewrite"
  | settle => "rewrite_to_fixed_point"

inductive Event where
  | started (activity : Activity) (root : NodeId)
  /-- A node was entered as a category that is not its own. -/
  | unknownNode (category : Category) (node : NodeId) (found : Tag)
  | transformed (replaced : UInt64) (rootReplaced : Bool)
  | settled (rounds : Nat) (total : UInt64)
  /-- The sequence no longer had the position an answer was to be stored at. -/
  | dropped (index : Nat)
  deriving DecidableEq, Repr

def Event.text : Event → String
  | started activity root =>
    s!"DEBUG span {activity.name} root={(Handle.mk .module root).text}"
  | unknownNode category node found =>
    s!"ERROR unknown AST node reached dispatch category={category.name} node={node.text} found={found.name}"
  | transformed replaced rootReplaced =>
    s!"DEBUG rewrite finished replaced={replaced.toNat} root_replaced={rootReplaced}"
  | settled rounds total =>
    s!"DEBUG fixed point reached rounds={rounds} total_replacements={total.toNat}"
  | dropped index =>
    s!"DEBUG sequence shrank below rewritten position; result dropped index={index}"

end ProgramTree
