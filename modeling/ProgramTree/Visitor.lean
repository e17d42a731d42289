import ProgramTree.Call
import ProgramTree.Sequence

/-!
Reading passes. A visitor is entered at a handle. Dispatching the handle finds the variant of its
node and calls the visitor's method for it, and walking a node enters its children, lane by lane.
Every place is read at the moment its child is entered, so what a handler does to the tree is seen by
the rest of the walk.
-/

namespace ProgramTree

namespace Visitor

abbrev Reply : Call → Type :=
  fun _ => Unit

abbrev Code (σ α : Type) : Type :=
  Script (World σ) Reply α

/-- The live loop over lane `k` of a node of variant `t`, from position `i` on. -/
structure Loop where
  t : Tag
  owner : NodeId
  category : Category
  k : Nat
  i : Nat
  deriving DecidableEq, Repr

abbrev Task (σ α : Type) : Type :=
  Script (World σ) (TaskReply Reply fun _ : Loop => Unit) α

end Visitor

/-- A reading pass with state `σ`. By default an entry point dispatches and a method walks. The pass is
asked for its policy anew at each sequence. -/
structure Visitor (σ : Type) where
  policy : σ → Policy := fun _ => .live
  enter : Handle → Visitor.Code σ Unit := fun h => Script.perform (Call.dispatch h)
  method : Tag → NodeId → Visitor.Code σ Unit := fun t id => Script.perform (Call.walk t id)

namespace Visitor

variable {σ : Type}

def Loop.go (loop : Loop) : Task σ Unit :=
  Script.perform (Sum.inr loop)

def visitPlace (c : Category) : Option NodeId → Task σ Unit
  | none => pure ()
  | some child => Script.perform (Sum.inl (Call.enter ⟨c, child⟩))

def walkLane (v : Visitor σ) (t : Tag) (owner : NodeId) (lane : Lane) (k : Nat) : Task σ Unit :=
  match lane.arity with
  | .one => do
    let place ← Script.read (World.place? t owner k 0)
    visitPlace lane.category place.join
  | .many => do
    match ← Script.read fun w => .ok (v.policy w.state) with
    | .live => Loop.go ⟨t, owner, lane.category, k, 0⟩
    | .snapshot => Sequence.visitCopy (Access.lane t owner k) (visitPlace lane.category)

section Sequences

variable {v : Visitor σ} {lane : Lane} {w : World σ} (many : lane.arity = .many) (t : Tag)
  (owner : NodeId) (k : Nat)

include many

theorem walkLane_live (live : v.policy w.state = .live) :
    v.walkLane t owner lane k w = Loop.go ⟨t, owner, lane.category, k, 0⟩ w := by
  unfold walkLane
  rw [many]
  simp only [Script.bind_apply, Script.read, Next.bind_finish_ok, live]

theorem walkLane_snapshot (snapshot : v.policy w.state = .snapshot) :
    v.walkLane t owner lane k w =
      Sequence.visitCopy (Access.lane t owner k) (visitPlace lane.category) w := by
  unfold walkLane
  rw [many]
  simp only [Script.bind_apply, Script.read, Next.bind_finish_ok, snapshot]

end Sequences

/-- What the engine does for a call, and in a round of a loop. -/
def body (v : Visitor σ) : (task : Call ⊕ Loop) → Task σ (TaskReply Reply (fun _ => Unit) task)
  | .inl (.enter h) => (v.enter h).embed
  | .inl (.dispatch h) => do
    let t ← Script.step (World.classify h)
    (v.method t h.node).embed
  | .inl (.walk t owner) => t.lanes.zipIdx.forM fun (lane, k) => v.walkLane t owner lane k
  | .inr loop =>
    Sequence.visitFrom (Access.lane loop.t loop.owner loop.k) (visitPlace loop.category)
      (fun j => { loop with i := j }.go) loop.i

def run (v : Visitor σ) (steps : Nat) (c : Call) (w : World σ) :
    Option (Except Fault Unit × World σ) :=
  Machine.run v.body steps (.inl c) w

def traverse (v : Visitor σ) (steps : Nat) (root : NodeId) (w : World σ) :
    Option (Except Fault Unit × World σ) :=
  v.run steps (.enter ⟨.module, root⟩) (w.note (.started .traverse root))

end Visitor

end ProgramTree
