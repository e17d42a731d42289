import ProgramTree.Visitor

/-!
The census of a tree: how many nodes of each variant are reached from a root. Links are not
followed, and a node is counted once for each place that holds it.
-/

namespace ProgramTree

namespace Census

def visitor : Visitor (List Tag) where
  policy := fun _ => .snapshot
  enter h := do
    let n ← Script.read fun w => w.arena.node h.node
    Script.update fun w => { w with state := n.tag :: w.state }
    Script.perform (Call.dispatch h)

/-- The number of occurrences of each tag that occurs, in the order of the tags. -/
def counts (seen : List Tag) : List (Tag × Nat) :=
  (Tag.all.map fun t => (t, seen.count t)).filter fun p => p.2 != 0

end Census

def census {σ : Type} (steps : Nat) (root : NodeId) (w : World σ) :
    Option (Except Fault (List (Tag × Nat)) × World σ) :=
  (Census.visitor.traverse steps root { w with state := [] }).map fun (r, w') =>
    (r.map fun _ => Census.counts w'.state, { w' with state := w.state })

end ProgramTree
