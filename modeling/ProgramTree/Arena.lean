import ProgramTree.Fault
import ProgramTree.Node

/-!
The arena: nodes in the order of their allocation. Nodes are only ever added, and an edit keeps a
node's variant and span, so a handle that has been good stays good.
-/

namespace ProgramTree

structure Arena where
  nodes : Array Node
  deriving DecidableEq

namespace Arena

def empty : Arena := ⟨#[]⟩

def size (a : Arena) : Nat :=
  a.nodes.size

def ofList (nodes : List Node) : Arena :=
  ⟨nodes.toArray⟩

def alloc (a : Arena) (n : Node) : NodeId × Arena :=
  (⟨a.nodes.size⟩, ⟨a.nodes.push n⟩)

def node (a : Arena) (id : NodeId) : Except Fault Node :=
  match a.nodes[id.index]? with
  | some n => .ok n
  | none => .error (.danglingHandle id a.size)

def get (a : Arena) (t : Tag) (id : NodeId) : Except Fault (Record t.fields) := do
  let n ← a.node id
  match n.as? t with
  | some record => .ok record
  | none => .error (.variantMismatch id t n.tag)

/-- Stores a record in the node `id`; without such a node nothing changes. -/
def put (a : Arena) (t : Tag) (id : NodeId) (record : Record t.fields) : Arena :=
  ⟨a.nodes.modify id.index fun n => n.withRecord t record⟩

/-- Edits a node of variant `t` in place. -/
def edit (a : Arena) (t : Tag) (id : NodeId) (f : Record t.fields → Record t.fields) :
    Except Fault Arena := do
  let record ← a.get t id
  return a.put t id (f record)

variable {a : Arena} {t : Tag} {id id' : NodeId} {n : Node} {record record' : Record t.fields}

theorem node_eq_ok_iff : a.node id = .ok n ↔ a.nodes[id.index]? = some n := by
  unfold node
  split <;> simp_all

@[simp] theorem size_alloc (n : Node) : (a.alloc n).2.size = a.size + 1 := by
  simp [alloc, size]

theorem node_alloc_of_ok (m : Node) (h : a.node id = .ok n) : (a.alloc m).2.node id = .ok n := by
  rw [node_eq_ok_iff] at h ⊢
  have := (Array.getElem?_eq_some_iff.mp h).choose
  simp [alloc, Array.getElem?_push, h, Nat.ne_of_lt this]

theorem node_alloc_self (m : Node) : (a.alloc m).2.node (a.alloc m).1 = .ok m := by
  simp [node_eq_ok_iff, alloc]

@[simp] theorem size_put (record : Record t.fields) : (a.put t id record).size = a.size := by
  simp [put, size]

theorem node_put_ne (h : id ≠ id') : (a.put t id record).node id' = a.node id' := by
  have : id.index ≠ id'.index := fun same => h (by cases id; cases id'; simp_all)
  simp [node, put, size, Array.getElem?_modify, this]

theorem node_put_self (h : a.node id = .ok n) :
    (a.put t id record).node id = .ok (n.withRecord t record) := by
  rw [node_eq_ok_iff] at h ⊢
  simp [put, Array.getElem?_modify, h]

end Arena

end ProgramTree
