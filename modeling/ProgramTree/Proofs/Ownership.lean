import ProgramTree.Proofs.Traversal
import ProgramTree.Proofs.WellTyped

/-!
Single ownership, seen in the arena as a whole. When every node is held by one child slot at most and the
root by none, then nothing that is reached from the root lies on a cycle, although there may be cycles
elsewhere. So a pass over a well-typed arena of this kind comes to its end, and visits what is reached
from the root once each (`Visitor.recorder_visits_owned`).
-/

namespace ProgramTree

namespace Arena

/-- A child slot of any node of the arena, given by the node and the number of the child, and its
occupant. -/
def Held (a : Arena) (slot : NodeId × Nat) (c : Handle) : Prop :=
  ∃ n, a.node slot.1 = .ok n ∧ n.children[slot.2]? = some c

/-- Every node is held by one slot of the arena at most, and `root` by none. -/
structure SolelyOwned (a : Arena) (root : NodeId) : Prop where
  root_unheld : ∀ {slot c}, a.Held slot c → c.node ≠ root
  one_slot : ∀ {slot slot' c c'}, a.Held slot c → a.Held slot' c' → c.node = c'.node → slot = slot'

def slots (a : Arena) : List ((NodeId × Nat) × Handle) :=
  a.nodes.toList.zipIdx.flatMap fun p => p.1.children.zipIdx.map fun c => ((⟨p.2⟩, c.2), c.1)

variable {a : Arena} {root : NodeId} {slot : NodeId × Nat} {c : Handle}

theorem Held.mem_slots (held : a.Held slot c) : (slot, c) ∈ a.slots := by
  obtain ⟨n, stored, child⟩ := held
  rw [node_eq_ok_iff, ← Array.getElem?_toList] at stored
  apply List.mem_flatMap.mpr
  refine ⟨(n, slot.1.index), List.mem_zipIdx_iff_getElem?.mpr stored, ?_⟩
  exact List.mem_map.mpr ⟨(c, slot.2), List.mem_zipIdx_iff_getElem?.mpr child, rfl⟩

/-- Single ownership can be read off the list of slots. -/
theorem SolelyOwned.of_slots (distinct : (root :: a.slots.map fun s => s.2.node).Nodup) :
    a.SolelyOwned root where
  root_unheld held same :=
    (List.nodup_cons.mp distinct).1 (same ▸ List.mem_map_of_mem held.mem_slots)
  one_slot held held' same :=
    congrArg Prod.fst (List.inj_on_of_nodup_map (List.nodup_cons.mp distinct).2
      held.mem_slots held'.mem_slots same)

theorem held_of_holds {h : Handle} (holds : Holds a h slot c) : a.Held slot c := by
  obtain ⟨_, n, -, good, owner, child⟩ := holds
  exact ⟨n, owner ▸ good.1, child⟩

theorem SolelyOwned.single (owned : a.SolelyOwned root) : SingleOwner a ⟨.module, root⟩ where
  root_unheld holds := owned.root_unheld (held_of_holds holds)
  one_slot holds holds' same _ := owned.one_slot (held_of_holds holds) (held_of_holds holds') same

end Arena

namespace Visitor

/-- In a well-typed arena with single ownership, with either policy and from any module root, the
recorder succeeds. It has noted what is reached from the root, and no node twice. -/
theorem recorder_visits_owned (policy : Policy) (root : NodeId) (w : World (List Handle))
    (typed : w.arena.WellTyped) (good : w.arena.Good ⟨.module, root⟩)
    (owned : w.arena.SolelyOwned root) :
    ∃ (visited : List Handle) (enough : Nat),
      (∀ steps, enough ≤ steps →
        (recorder policy ∅).traverse steps root w =
          some (.ok (), { w.note (.started .traverse root) with state := w.state ++ visited })) ∧
      (visited.map Handle.node).Nodup ∧
      ∀ h, h ∈ visited ↔ Reaches w.arena ⟨.module, root⟩ h := by
  obtain ⟨tree, unfolds⟩ := owned.single.exists_unfolds ∅
  have none := unfolds.stubs_eq_nil fun h => typed.good_of_reaches good
  have all := Forest.handles_eq_preorder none
  obtain ⟨enough, ends⟩ :=
    (recorder_marking policy ∅).run (w := w.note (.started .traverse root)) unfolds none
  refine ⟨tree.preorder, enough, fun steps more => ?_, ?_, fun h => ⟨?_, ?_⟩⟩
  · rw [traverse, ends steps more, marked_recorder, ← all]
    rfl
  · have distinct := owned.single.nodup_ids unfolds
    rwa [← all, Forest.handles, List.map_map]
  · exact unfolds.reaches_of_mem_preorder h
  · exact unfolds.mem_preorder_of_reaches

def loopSample : World (List Handle) where
  arena := .ofList
    [⟨.nameSpace, ("all", [⟨1⟩], [], [], [], [], ()), .dummy⟩,
      ⟨.nameSpace, ("part", [], [], [], [], [], ()), .dummy⟩,
      ⟨.unaryOperator, (.negate, ⟨3⟩, ()), .dummy⟩, ⟨.unaryOperator, (.negate, ⟨2⟩, ()), .dummy⟩]
  log := #[]
  state := []

theorem loopSample_typed : loopSample.arena.WellTyped := by
  rintro ⟨_ | _ | _ | _ | k⟩ n found c mem
  · cases found
    obtain rfl := List.mem_singleton.mp mem
    exact ⟨_, rfl, rfl⟩
  · cases found
    cases mem
  · cases found
    obtain rfl := List.mem_singleton.mp mem
    exact ⟨_, rfl, rfl⟩
  · cases found
    obtain rfl := List.mem_singleton.mp mem
    exact ⟨_, rfl, rfl⟩
  · cases found

theorem recorder_visits_owned_loopSample :
    loopSample.arena.Held (⟨2⟩, 0) ⟨.expression, ⟨3⟩⟩ ∧
      loopSample.arena.Held (⟨3⟩, 0) ⟨.expression, ⟨2⟩⟩ ∧
      ∃ (visited : List Handle) (enough : Nat),
        (∀ steps, enough ≤ steps →
          (recorder .live ∅).traverse steps ⟨0⟩ loopSample =
            some (.ok (), { loopSample.note (.started .traverse ⟨0⟩) with state := visited })) ∧
        (visited.map Handle.node).Nodup ∧ ⟨.module, ⟨1⟩⟩ ∈ visited := by
  obtain ⟨visited, enough, ends, distinct, exactly⟩ :=
    recorder_visits_owned .live ⟨0⟩ loopSample loopSample_typed ⟨_, rfl, rfl⟩ (.of_slots (by decide))
  refine ⟨⟨_, rfl, rfl⟩, ⟨_, rfl, rfl⟩, visited, enough, ends, distinct, (exactly _).mpr ?_⟩
  exact .child .root ⟨rfl, rfl⟩ List.mem_cons_self

end Visitor

end ProgramTree
