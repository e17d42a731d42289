import ProgramTree.Arena
import ProgramTree.Event

/-!
The world of a pass: the arena it works on, the log so far, and the state of the pass itself. What
the engines do to the world between two calls of a handler is collected here. Each of these steps
gives back a world also when it fails.
-/

namespace ProgramTree

structure World (σ : Type) where
  arena : Arena
  log : Array Event
  state : σ

namespace World

variable {σ : Type}

def note (w : World σ) (e : Event) : World σ :=
  { w with log := w.log.push e }

/-- The variant of the node that a handle names, which has to be of the handle's category. -/
def classify (h : Handle) (w : World σ) : Except Fault Tag × World σ :=
  match w.arena.node h.node with
  | .error e => (.error e, w)
  | .ok n =>
    if n.tag.category = h.category then (.ok n.tag, w)
    else
      (.error (.unknownNode h.category h.node n.tag),
        w.note (.unknownNode h.category h.node n.tag))

theorem classify_frame (h : Handle) (w : World σ) :
    (classify h w).2.arena = w.arena ∧ (classify h w).2.state = w.state := by
  unfold classify
  cases w.arena.node h.node with
  | error e => exact ⟨rfl, rfl⟩
  | ok node =>
    dsimp only
    split <;> exact ⟨rfl, rfl⟩

/-- The place at position `i` of lane `k` in the node `owner` of variant `t`. -/
def place? (t : Tag) (owner : NodeId) (k i : Nat) (w : World σ) :
    Except Fault (Option (Option NodeId)) :=
  (w.arena.get t owner).map fun record => record.place? t.fields k i

def places (t : Tag) (owner : NodeId) (k : Nat) (w : World σ) :
    Except Fault (List (Option NodeId)) :=
  (w.arena.get t owner).map fun record => (record.children t.fields)[k]?.getD []

/-- Puts `child` in the place at position `i` of lane `k` in the node `owner` of variant `t`, and
tells whether there is such a place. -/
def fill (t : Tag) (owner : NodeId) (k i : Nat) (child : NodeId) (w : World σ) :
    Except Fault Bool × World σ :=
  match w.arena.get t owner with
  | .error e => (.error e, w)
  | .ok record =>
    match record.place? t.fields k i with
    | none => (.ok false, w)
    | some _ =>
      (.ok true, { w with arena := w.arena.put t owner (record.fill t.fields k i child) })

end World

end ProgramTree
