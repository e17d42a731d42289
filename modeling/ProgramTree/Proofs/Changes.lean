import Mathlib.Algebra.BigOperators.Group.Finset.Basic
import ProgramTree.Proofs.AnsweredTree

/-!
How many child slots of an arena hold another node afterwards, seen from the two arenas alone. For a pass
that answers, this is compared with its count: the count has grown by the changed slots, except for
those in a sequence that was cut short (`Transformer.Progress.replaced_add_cutShort`).
-/

namespace ProgramTree

def Row.changes (row row' : Row) : Nat :=
  (row.held.zip row'.held).countP fun p => decide (p.2.node ≠ p.1.node)

/-- The row is a sequence whose end was not reached. Its overwritten places are not counted. -/
def Answers.cutShort (given : Answers) (row : Row) : Bool :=
  !decide (row.Settled given)

/-- The changed slots of a node, in the rows that satisfy `among`. -/
def Node.changesIn (among : Row → Bool) (n n' : Node) : Nat :=
  ((n.rows.zip n'.rows).map fun p => if among p.1 then p.1.changes p.2 else 0).sum

def Arena.changesIn (among : Row → Bool) (a a' : Arena) : Nat :=
  ∑ i ∈ Finset.range a.size,
    match a.node ⟨i⟩, a'.node ⟨i⟩ with
    | .ok n, .ok n' => n.changesIn among n'
    | _, _ => 0

/-- How many child slots of the first arena hold another node in the second one. -/
def Arena.changes (a a' : Arena) : Nat :=
  a.changesIn (fun _ => true) a'

section Nodes

variable (among : Row → Bool) (given : Answers)

theorem Row.changes_map (row : Row) : row.changes (row.map given.of) = given.changes row.held := by
  rw [Row.changes, Row.map, Answers.changes]
  generalize row.held = held
  induction held with
  | nil => rfl
  | cons h held ih => rw [List.map_cons, List.zip_cons_cons, List.countP_cons, List.countP_cons, ih]

theorem Node.changesIn_mapChildren (n : Node) :
    n.changesIn among (n.mapChildren given.of) =
      (n.rows.map fun row => if among row then given.changes row.held else 0).sum := by
  rw [Node.changesIn, Node.rows_mapChildren]
  generalize n.rows = rows
  induction rows with
  | nil => rfl
  | cons row rows ih =>
    simp only [List.map_cons, List.zip_cons_cons, List.sum_cons, Row.changes_map, ih]

theorem Node.changesIn_self (n : Node) : n.changesIn among n = 0 := by
  have kept : n.mapChildren (Answers.of []) = n := Node.mapChildren_id fun _ _ => rfl
  have none := Node.changesIn_mapChildren among [] n
  rw [kept] at none
  rw [none]
  apply List.sum_eq_zero_iff_forall_eq_nat.mpr
  intro x mem
  obtain ⟨row, -, rfl⟩ := List.mem_map.mp mem
  rw [Answers.changes_eq_zero fun _ _ => List.not_mem_nil, ite_self]

theorem Node.changesIn_settled (n : Node) :
    n.changesIn (fun row => decide (row.Settled given)) (n.mapChildren given.of) = n.counted given := by
  rw [Node.changesIn_mapChildren]
  simp only [decide_eq_true_eq]
  rfl

end Nodes

theorem Node.changesIn_add_not (among : Row → Bool) (n n' : Node) :
    n.changesIn among n' + n.changesIn (fun row => !among row) n' = n.changesIn (fun _ => true) n' := by
  rw [Node.changesIn, Node.changesIn, Node.changesIn, ← List.sum_map_add]
  refine congrArg List.sum (List.map_congr_left fun p _ => ?_)
  cases among p.1 <;> simp

theorem Arena.changesIn_add_not (among : Row → Bool) (a a' : Arena) :
    a.changesIn among a' + a.changesIn (fun row => !among row) a' = a.changes a' := by
  rw [Arena.changes, Arena.changesIn, Arena.changesIn, Arena.changesIn, ← Finset.sum_add_distrib]
  apply Finset.sum_congr rfl
  intro i _
  split
  · exact Node.changesIn_add_not among ..
  · rfl

section Trees

variable {a a' : Arena} {f : Forest} {hs : List Handle} {given : Answers}

/-- Only the nodes of the forest have changed slots. -/
theorem Unfolds.changesIn_eq (unfolds : Unfolds a ∅ hs f) (distinct : f.ids.Nodup)
    (mapped : f.Mapped given a')
    (frame : ∀ {id n}, id ∉ f.ids → a.node id = .ok n → a'.node id = .ok n) (among : Row → Bool) :
    a.changesIn among a' =
      (f.nodes.map fun p => p.2.changesIn among (p.2.mapChildren given.of)).sum := by
  let changes : Nat → Nat := fun i =>
    match a.node ⟨i⟩, a'.node ⟨i⟩ with
    | .ok n, .ok n' => n.changesIn among n'
    | _, _ => 0
  -- The sum over all indices is one over the nodes of the forest, where each index occurs once.
  have inside : ∀ p ∈ f.nodes,
      changes p.1.node.index = p.2.changesIn among (p.2.mapChildren given.of) := by
    intro p mem
    simp only [changes, (unfolds.shows_of_mem p mem).1, mapped p mem]
  have outside : ∀ i ∈ Finset.range a.size, i ∉ (f.ids.map NodeId.index).toFinset →
      changes i = 0 := by
    intro i _ absent
    rw [List.mem_toFinset] at absent
    have apart : (⟨i⟩ : NodeId) ∉ f.ids := fun mem => absent (List.mem_map_of_mem mem)
    cases stored : a.node ⟨i⟩ with
    | error e => simp only [changes, stored]
    | ok n => simp only [changes, stored, frame apart stored, Node.changesIn_self]
  have bounded : (f.ids.map NodeId.index).toFinset ⊆ Finset.range a.size := by
    intro i mem
    rw [List.mem_toFinset, Forest.ids, List.map_map] at mem
    obtain ⟨p, there, rfl⟩ := List.mem_map.mp mem
    have stored := Arena.node_eq_ok_iff.mp (unfolds.shows_of_mem p there).1
    exact Finset.mem_range.mpr (Array.getElem?_eq_some_iff.mp stored).choose
  have indices : (f.ids.map NodeId.index).Nodup :=
    distinct.map fun id id' same => by cases id; cases id'; exact congrArg _ same
  calc a.changesIn among a' = ∑ i ∈ Finset.range a.size, changes i := rfl
    _ = ∑ i ∈ (f.ids.map NodeId.index).toFinset, changes i :=
      (Finset.sum_subset bounded outside).symm
    _ = ((f.ids.map NodeId.index).map changes).sum := List.sum_toFinset changes indices
    _ = (f.nodes.map fun p => p.2.changesIn among (p.2.mapChildren given.of)).sum := by
      rw [Forest.ids, List.map_map, List.map_map]
      exact congrArg List.sum (List.map_congr_left inside)

end Trees

namespace Transformer.Progress

variable {σ : Type} {quiet : Prop} {f : Forest} {hs : List Handle} {w w' : World (Tally σ)}
  {past past' : List (Moment Reply)} {given : Answers}

theorem changesIn_settled (progress : Progress quiet f w past past' given w')
    (unfolds : Unfolds w.arena ∅ hs f) (distinct : f.ids.Nodup) :
    w.arena.changesIn (fun row => decide (row.Settled given)) w'.arena = f.counted given := by
  rw [unfolds.changesIn_eq distinct progress.mapped progress.touched.frame]
  exact congrArg List.sum (List.map_congr_left fun p _ => Node.changesIn_settled given p.2)

theorem counted_add_cutShort (progress : Progress quiet f w past past' given w')
    (unfolds : Unfolds w.arena ∅ hs f) (distinct : f.ids.Nodup) :
    f.counted given + w.arena.changesIn given.cutShort w'.arena = w.arena.changes w'.arena := by
  rw [← progress.changesIn_settled unfolds distinct]
  exact Arena.changesIn_add_not (fun row => decide (row.Settled given)) w.arena w'.arena

/-- The count and the changed slots that it misses make up all changed slots. -/
theorem replaced_add_cutShort (progress : Progress quiet f w past past' given w')
    (unfolds : Unfolds w.arena ∅ hs f) (distinct : f.ids.Nodup) :
    w'.state.replaced + UInt64.ofNat (w.arena.changesIn given.cutShort w'.arena) =
      w.state.replaced + UInt64.ofNat (w.arena.changes w'.arena) := by
  rw [progress.touched.replaced, UInt64.add_assoc, ← UInt64.ofNat_add,
    progress.counted_add_cutShort unfolds distinct]

theorem toNat_replaced_add_cutShort (progress : Progress quiet f w past past' given w')
    (unfolds : Unfolds w.arena ∅ hs f) (distinct : f.ids.Nodup)
    (fits : w.state.replaced.toNat + w.arena.changes w'.arena < 2 ^ 64) :
    w'.state.replaced.toNat + w.arena.changesIn given.cutShort w'.arena =
      w.state.replaced.toNat + w.arena.changes w'.arena := by
  have all := progress.counted_add_cutShort unfolds distinct
  rw [progress.touched.replaced, UInt64.toNat_add, UInt64.toNat_ofNat']
  omega

/-- The count misses nothing exactly when the sequences that were cut short are as they were. -/
theorem cutShort_eq_zero_iff (progress : Progress quiet f w past past' given w')
    (unfolds : Unfolds w.arena ∅ hs f) (distinct : f.ids.Nodup) :
    w.arena.changesIn given.cutShort w'.arena = 0 ↔
      ∀ p ∈ f.nodes, ∀ row ∈ p.2.rows, given.cutShort row → ∀ c ∈ row.held, given.of c = c.node := by
  rw [unfolds.changesIn_eq distinct progress.mapped progress.touched.frame,
    List.sum_eq_zero_iff_forall_eq_nat, List.forall_mem_map]
  refine forall₂_congr fun p _ => ?_
  rw [Node.changesIn_mapChildren, List.sum_eq_zero_iff_forall_eq_nat, List.forall_mem_map]
  refine forall₂_congr fun row _ => ?_
  simp [Answers.changes]

theorem cutShort_eq_zero (progress : Progress quiet f w past past' given w')
    (unfolds : Unfolds w.arena ∅ hs f) (distinct : f.ids.Nodup)
    (all : ∀ h ∈ f.preorder, h ∈ given.keys) : w.arena.changesIn given.cutShort w'.arena = 0 := by
  apply (progress.cutShort_eq_zero_iff unfolds distinct).mpr
  intro p mem row among cut
  have settled : row.Settled given := .inr fun c held =>
    Answers.isSome_lookup (all c (unfolds.children_mem p mem c (List.mem_flatMap.mpr ⟨row, among, held⟩)))
  simp [Answers.cutShort, settled] at cut

end Transformer.Progress

end ProgramTree
