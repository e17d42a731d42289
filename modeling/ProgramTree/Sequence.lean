import ProgramTree.Machine
import ProgramTree.World

/-!
Loops over sequences that may change while they are walked. The live loops hold no copy of the
sequence: the element at each position is read right before it is handed on, positions go up by one,
and the loop ends at the first position past the end. An element inserted behind the position is
therefore reached, and one that slips to or before it is not.

Nothing bounds the number of rounds of a live loop. The loops are written one round at a time, with
`again` for the rounds that follow.
-/

namespace ProgramTree

inductive Policy where
  /-- Position by position, as the sequence is at that moment. -/
  | live
  /-- Over a copy made before the first visit. -/
  | snapshot
  deriving DecidableEq, Repr

/-- How a sequence that is stored in a world is reached. -/
structure Access (ω α : Type) where
  read : Nat → ω → Except Fault (Option α)
  readAll : ω → Except Fault (List α)
  /-- Overwrites the element at a position, and tells whether there is such a position. -/
  write : Nat → α → ω → Except Fault Bool × ω

/-- The places of lane `k` in the node `owner` of variant `t`. No place is ever emptied. -/
def Access.lane {σ : Type} (t : Tag) (owner : NodeId) (k : Nat) :
    Access (World σ) (Option NodeId) where
  read i := World.place? t owner k i
  readAll := World.places t owner k
  write
    | i, some child => World.fill t owner k i child
    | _, none => fun w => (.ok true, w)

namespace Sequence

variable {ω κ α σ : Type} {ρ : κ → Type}

def visitFrom (seq : Access ω α) (visit : α → Script ω ρ Unit) (again : Nat → Script ω ρ Unit)
    (i : Nat) : Script ω ρ Unit := do
  match ← Script.read (seq.read i) with
  | none => pure ()
  | some a =>
    visit a
    again (i + 1)

def visitCopy (seq : Access ω α) (visit : α → Script ω ρ Unit) : Script ω ρ Unit := do
  let items ← Script.read seq.readAll
  items.forM visit

/-- The replacing loop from position `i`, with the number of elements replaced so far. An answer
that differs from the element read is stored at its position, whatever is there by then; it is
dropped when the sequence no longer reaches that far. -/
def replaceFrom [DecidableEq α] (seq : Access (World σ) α) (replace : α → Script (World σ) ρ α)
    (again : Nat → Nat → Script (World σ) ρ Nat) (i replaced : Nat) : Script (World σ) ρ Nat := do
  match ← Script.read (seq.read i) with
  | none => pure replaced
  | some old =>
    let new ← replace old
    if new = old then
      again (i + 1) replaced
    else if ← Script.step (seq.write i new) then
      again (i + 1) (replaced + 1)
    else
      Script.update fun w => w.note (.dropped i)
      again (i + 1) replaced

def forEach (steps : Nat) (policy : Policy) (seq : Access ω α)
    (visit : α → ω → Except Fault Unit × ω) (w : ω) : Option (Except Fault Unit × ω) :=
  let visit := fun a => Script.step (ρ := fun _ : Nat => Unit) (visit a)
  match policy with
  | .live => Machine.run (visitFrom seq visit Script.perform) steps 0 w
  | .snapshot => Machine.run (fun _ => visitCopy seq visit) steps 0 w

def replaceEach [DecidableEq α] (steps : Nat) (seq : Access (World σ) α)
    (replace : α → World σ → Except Fault α × World σ) (w : World σ) :
    Option (Except Fault Nat × World σ) :=
  let replace := fun a => Script.step (ρ := fun _ : Nat × Nat => Nat) (replace a)
  Machine.run (fun (i, n) => replaceFrom seq replace (fun j m => Script.perform (j, m)) i n)
    steps (0, 0) w

end Sequence

end ProgramTree
