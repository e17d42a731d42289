import ProgramTree.Proofs.Confinement
import ProgramTree.Proofs.WellTyped

/-!
Single places of a node. Filling an occupied place changes one child and no other
(`Node.children_fill`). When the places are filled one after the other, in the order of a walk and each
with what `f` says, the node is mapped by `f` in the end, also when it holds a child in several places
(`Node.Partly`).
-/

namespace ProgramTree

namespace Node

variable {n m : Node} {k k' i i' : Nat} {lane : Lane} {id new : NodeId} {place : Option NodeId}
  {f : Handle → NodeId}

theorem place?_fill_self (there : n.place? k i = some place) (new : NodeId) :
    (n.fill k i new).place? k i = some (some new) := by
  rw [place?_fill_eq, if_pos ⟨rfl, rfl⟩, there]
  rfl

theorem place?_fill_ne (other : ¬(k = k' ∧ i = i')) (new : NodeId) :
    (n.fill k i new).place? k' i' = n.place? k' i' := by
  rw [place?_fill_eq, if_neg other]

theorem places_fill_ne (other : k ≠ k') : (n.fill k i new).places k' = n.places k' := by
  apply List.ext_getElem?
  intro j
  rw [getElem?_places, getElem?_places, place?_fill_ne fun both => other both.1]

theorem rows_fill_ne (other : k ≠ k') : (n.fill k i new).rows[k']? = n.rows[k']? := by
  cases here : n.tag.lanes[k']? with
  | none =>
    have beyond := List.getElem?_eq_none_iff.mp here
    rw [List.getElem?_eq_none (by rwa [length_rows]), List.getElem?_eq_none (by rwa [length_rows])]
  | some lane =>
    have there : (n.fill k i new).tag.lanes[k']? = some lane := here
    rw [getElem?_rows here, getElem?_rows there, places_fill_ne other]

theorem behind_fill : (n.fill k i new).behind k i = n.behind k i := by
  have rows : (n.fill k i new).rows.take k = n.rows.take k := by
    apply List.ext_getElem?
    intro j
    rw [List.getElem?_take, List.getElem?_take]
    split
    · exact rows_fill_ne (by omega)
    · rfl
  have places : ((n.fill k i new).places k).take i = (n.places k).take i := by
    apply List.ext_getElem?
    intro j
    rw [List.getElem?_take, List.getElem?_take, getElem?_places, getElem?_places]
    split
    · exact place?_fill_ne (by omega) new
    · rfl
  rw [behind, behind, settled, settled, passed, passed, rows, places]
  rfl

theorem onward_fill : (n.fill k i new).onward k (i + 1) = n.onward k (i + 1) := by
  have rows : (n.fill k i new).rows.drop (k + 1) = n.rows.drop (k + 1) := by
    apply List.ext_getElem?
    intro j
    rw [List.getElem?_drop, List.getElem?_drop]
    exact rows_fill_ne (by omega)
  have places : ((n.fill k i new).places k).drop (i + 1) = (n.places k).drop (i + 1) := by
    apply List.ext_getElem?
    intro j
    rw [List.getElem?_drop, List.getElem?_drop, getElem?_places, getElem?_places]
    exact place?_fill_ne (by omega) new
  rw [onward, onward, rows, places]
  rfl

theorem getElem?_children (here : n.tag.lanes[k]? = some lane)
    (there : n.place? k i = some (some id)) :
    n.children[(n.behind k i).length]? = some ⟨lane.category, id⟩ := by
  rw [n.children_eq k i, n.onward_some here there, List.getElem?_append_right (Nat.le_refl _),
    Nat.sub_self]
  rfl

/-- To fill an occupied place is to give the node another child there. -/
theorem children_fill (here : n.tag.lanes[k]? = some lane)
    (there : n.place? k i = some (some id)) (new : NodeId) :
    (n.fill k i new).children = n.children.set (n.behind k i).length ⟨lane.category, new⟩ := by
  have here' : (n.fill k i new).tag.lanes[k]? = some lane := here
  rw [(n.fill k i new).children_eq k i, onward_some here' (place?_fill_self there new), behind_fill,
    onward_fill, n.children_eq k i, n.onward_some here there, List.set_append_right _ _ (Nat.le_refl _),
    Nat.sub_self, List.set_cons_zero]

theorem children_mapChildren (f : Handle → NodeId) (n : Node) :
    (n.mapChildren f).children = n.children.map fun h => ⟨h.category, f h⟩ := by
  rw [children, rows_mapChildren, List.flatMap_map, children, List.map_flatMap]
  rfl

theorem mapChildren_mapChildren (f g : Handle → NodeId) (n : Node) :
    (n.mapChildren f).mapChildren g = n.mapChildren fun h => g ⟨h.category, f h⟩ :=
  congrArg (Node.mk n.tag · n.span) (Record.mapChildren_mapChildren f g n.tag.fields n.record)

theorem alike_mapChildren (f : Handle → NodeId) (n : Node) : n.Alike (n.mapChildren f) :=
  alike_iff_erase.mpr (mapChildren_mapChildren f _ n)

/-- Nodes that are alike and have the same occupants in all places are equal. -/
theorem Alike.eq_of_places (alike : n.Alike m) (same : ∀ k i, m.place? k i = n.place? k i) : m = n := by
  refine alike.eq ?_
  apply List.ext_getElem?
  intro k
  cases here : n.tag.lanes[k]? with
  | none =>
    have beyond := List.getElem?_eq_none_iff.mp here
    rw [List.getElem?_eq_none (by rwa [length_rows, alike.tag]),
      List.getElem?_eq_none (by rwa [length_rows])]
  | some lane =>
    have there : m.tag.lanes[k]? = some lane := by rwa [alike.tag]
    have places : m.places k = n.places k := by
      apply List.ext_getElem?
      intro i
      rw [getElem?_places, getElem?_places, same]
    rw [getElem?_rows here, getElem?_rows there, places]

theorem Alike.eq_of_childless (alike : n.Alike m) (none : n.children = []) : m = n := by
  refine alike.eq_of_places fun k i => ?_
  cases there : n.place? k i with
  | none => simpa [there] using alike.place? k i
  | some place =>
    cases place with
    | none =>
      have same := alike.place? k i
      rw [there] at same
      obtain ⟨place, found, empty⟩ := Option.map_eq_some_iff.mp same
      cases place with
      | none => exact found
      | some _ => cases empty
    | some id =>
      cases here : n.tag.lanes[k]? with
      | none => simp [n.place?_of_no_lane here] at there
      | some lane =>
        have mem := List.mem_of_getElem? (getElem?_children here there)
        rw [none] at mem
        cases mem

/-- A place is before position `i` of lane `k`. -/
def Before (k i k' i' : Nat) : Prop :=
  k' < k ∨ k' = k ∧ i' < i

instance (k i k' i' : Nat) : Decidable (Before k i k' i') :=
  inferInstanceAs (Decidable (_ ∨ _))

/-- The places before position `i` of lane `k` are mapped by `f`, and the others are as they were. -/
structure Partly (f : Handle → NodeId) (n : Node) (k i : Nat) (m : Node) : Prop where
  alike : n.Alike m
  places : ∀ k' i', m.place? k' i' =
    if Before k i k' i' then (n.mapChildren f).place? k' i' else n.place? k' i'

namespace Partly

theorem start (f : Handle → NodeId) (n : Node) : n.Partly f 0 0 n where
  alike := .refl n
  places k' i' := by rw [if_neg (by unfold Before; omega)]

theorem here (partly : n.Partly f k i m) : m.place? k i = n.place? k i := by
  rw [partly.places, if_neg (by unfold Before; omega)]

theorem keep (partly : n.Partly f k i m) (same : (n.mapChildren f).place? k i = n.place? k i) :
    n.Partly f k (i + 1) m where
  alike := partly.alike
  places k' i' := by
    by_cases here : k' = k ∧ i' = i
    · obtain ⟨rfl, rfl⟩ := here
      rw [partly.here, if_pos (.inr ⟨rfl, Nat.lt_succ_self _⟩), same]
    · have iff : Before k (i + 1) k' i' ↔ Before k i k' i' := by
        unfold Before
        omega
      simp only [iff]
      exact partly.places k' i'

theorem skip (partly : n.Partly f k i m) (empty : n.place? k i = some none) :
    n.Partly f k (i + 1) m := by
  refine partly.keep ?_
  cases here : n.tag.lanes[k]? with
  | none => simp [n.place?_of_no_lane here] at empty
  | some lane =>
    rw [place?_mapChildren f here, empty]
    rfl

theorem fill (partly : n.Partly f k i m) (here : n.tag.lanes[k]? = some lane)
    (there : n.place? k i = some (some id)) :
    n.Partly f k (i + 1) (m.fill k i (f ⟨lane.category, id⟩)) where
  alike := partly.alike.trans (alike_fill (partly.here.trans there) _)
  places k' i' := by
    rw [place?_fill_eq]
    by_cases same : k = k' ∧ i = i'
    · obtain ⟨rfl, rfl⟩ := same
      rw [if_pos ⟨rfl, rfl⟩, if_pos (.inr ⟨rfl, Nat.lt_succ_self _⟩), partly.here,
        place?_mapChildren f here, there]
      rfl
    · have iff : Before k (i + 1) k' i' ↔ Before k i k' i' := by
        unfold Before
        omega
      simp only [if_neg same, iff]
      exact partly.places k' i'

theorem next (partly : n.Partly f k i m) (here : n.tag.lanes[k]? = some lane)
    (beyond : n.place? k i = none) : n.Partly f (k + 1) 0 m where
  alike := partly.alike
  places k' i' := by
    by_cases rest : k' = k ∧ i ≤ i'
    · obtain ⟨rfl, later⟩ := rest
      have short : (n.places k').length ≤ i := by
        rwa [← getElem?_places, List.getElem?_eq_none_iff] at beyond
      have gone : n.place? k' i' = none := by
        rw [← getElem?_places, List.getElem?_eq_none_iff]
        omega
      have both : (n.mapChildren f).place? k' i' = n.place? k' i' := by
        rw [place?_mapChildren f here, gone]
        rfl
      rw [partly.places, both, ite_self, ite_self]
    · have iff : Before (k + 1) 0 k' i' ↔ Before k i k' i' := by
        unfold Before
        omega
      simp only [iff]
      exact partly.places k' i'

/-- After its last lane, the node is mapped. -/
theorem eq_mapChildren (partly : n.Partly f n.tag.lanes.length 0 m) : m = n.mapChildren f := by
  have alike : (n.mapChildren f).Alike m := by
    rw [alike_iff_erase, alike_iff_erase.mp partly.alike, alike_iff_erase.mp (alike_mapChildren f n)]
  refine alike.eq_of_places fun k i => ?_
  rw [partly.places]
  split
  · rfl
  · have no : n.tag.lanes[k]? = none := by
      rw [List.getElem?_eq_none_iff]
      unfold Before at *
      omega
    rw [n.place?_of_no_lane no, place?_of_no_lane (n := n.mapChildren f) no]

end Partly

end Node

end ProgramTree
