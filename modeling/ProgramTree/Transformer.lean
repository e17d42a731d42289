import ProgramTree.Call
import ProgramTree.Sequence

/-!
Transforming passes. An entry point answers with the node that takes the place of the one entered;
to answer with the same node is to keep it. The children of a node are walked as in a reading pass,
and a place is overwritten exactly when the answer differs from the occupant that was read. The pass
counts the places overwritten, a single place at once and a sequence when its end has been reached.
The count is a 64-bit word, which handlers may set and which wraps around.
-/

namespace ProgramTree

/-- The state of a transforming pass: how many places were overwritten, and its own. -/
structure Tally (σ : Type) where
  replaced : UInt64
  own : σ

namespace Transformer

/-- What a call replies: the node to use from now on, or only its end. -/
abbrev Reply : Call → Type
  | .enter _ => NodeId
  | .dispatch _ => NodeId
  | .walk .. => Unit

abbrev Code (σ α : Type) : Type :=
  Script (World (Tally σ)) Reply α

/-- The loop over lane `k` of a node of variant `t`, from position `i` on, when `replaced` of its
places were overwritten before. It replies how many there were in the end. -/
structure Loop where
  t : Tag
  owner : NodeId
  category : Category
  k : Nat
  i : Nat
  replaced : Nat
  deriving DecidableEq, Repr

abbrev Task (σ α : Type) : Type :=
  Script (World (Tally σ)) (TaskReply Reply fun _ : Loop => Nat) α

end Transformer

/-- A transforming pass with state `σ`. By default an entry point dispatches, and a method walks and
keeps the node. -/
structure Transformer (σ : Type) where
  enter : Handle → Transformer.Code σ NodeId := fun h => Script.perform (Call.dispatch h)
  method : Tag → NodeId → Transformer.Code σ NodeId := fun t id => do
    Script.perform (Call.walk t id)
    return id

namespace Transformer

variable {σ : Type}

def count (n : Nat) : Task σ Unit :=
  Script.update fun w =>
    { w with state := { w.state with replaced := w.state.replaced + UInt64.ofNat n } }

def Loop.go (loop : Loop) : Task σ Nat :=
  Script.perform (Sum.inr loop)

def replacePlace (c : Category) : Option NodeId → Task σ (Option NodeId)
  | none => pure none
  | some child => do
    let new ← Script.perform (Sum.inl (Call.enter ⟨c, child⟩))
    return some new

def walkLane (t : Tag) (owner : NodeId) (lane : Lane) (k : Nat) : Task σ Unit :=
  match lane.arity with
  | .one => do
    match ← Script.read (World.place? t owner k 0) with
    | none => pure ()
    | some old =>
      let new ← replacePlace lane.category old
      if new = old then
        pure ()
      else if ← Script.step ((Access.lane t owner k).write 0 new) then
        count 1
      else
        pure ()
  | .many => do
    let replaced ← Loop.go ⟨t, owner, lane.category, k, 0, 0⟩
    count replaced

/-- What the engine does for a call, and in a round of a loop. -/
def body (r : Transformer σ) : (task : Call ⊕ Loop) → Task σ (TaskReply Reply (fun _ => Nat) task)
  | .inl (.enter h) => (r.enter h).embed
  | .inl (.dispatch h) => do
    let t ← Script.step (World.classify h)
    (r.method t h.node).embed
  | .inl (.walk t owner) => t.lanes.zipIdx.forM fun (lane, k) => walkLane t owner lane k
  | .inr loop =>
    Sequence.replaceFrom (Access.lane loop.t loop.owner loop.k) (replacePlace loop.category)
      (fun j n => { loop with i := j, replaced := n }.go) loop.i loop.replaced

def run (r : Transformer σ) (steps : Nat) (c : Call) (w : World (Tally σ)) :
    Option (Except Fault (Reply c) × World (Tally σ)) :=
  Machine.run r.body steps (.inl c) w

/-- By how much a count has grown. One that is smaller than before counts as not grown. -/
def growth (before after : UInt64) : UInt64 :=
  if before ≤ after then after - before else 0

/-- Transforms a whole tree from its module root. The result is the root to use from now on, which
has no place of its own to be counted, and the growth of the count of places overwritten. -/
def transform (r : Transformer σ) (steps : Nat) (root : NodeId) (w : World (Tally σ)) :
    Option (Except Fault (NodeId × UInt64) × World (Tally σ)) :=
  let before := w.state.replaced
  match r.run steps (.enter ⟨.module, root⟩) (w.note (.started .transform root)) with
  | none => none
  | some (.error e, w) => some (.error e, w)
  | some (.ok newRoot, w) =>
    let replaced := growth before w.state.replaced
    some (.ok (newRoot, replaced), w.note (.transformed replaced (newRoot != root)))

end Transformer

end ProgramTree
