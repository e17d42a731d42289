import Mathlib.Data.List.Forall2
import ProgramTree.Proofs.Walking

/-!
Nodes that differ in no more than the handles in their child slots. `FieldType.Alike` says field by
field what they have in common: all payload and links, the lengths of sequences, and which optional
children and groups are there. A node is alike to what becomes of it when an occupied place is filled
(`Node.alike_fill`), and two alike nodes with the same children are equal (`Node.Alike.eq`).

An arena grows by some nodes when they are added at its end and all nodes stay alike (`Arena.GrowsBy`).
-/

namespace ProgramTree

namespace FieldType

/-- The values have all in common but the nodes that occupied places hold. -/
def Alike : (ty : FieldType) → ty.Val → ty.Val → Prop
  | child _, _, _ => True
  | optional _, id?, id?' => id?'.isSome = id?.isSome
  | sequence _, ids, ids' => ids'.length = ids.length
  | labelled _, items, items' => items'.map Labelled.label = items.map Labelled.label
  | details, d?, d?' =>
    d?'.map (fun d => (d.kind, d.sampleTypes.length, d.arraySize.isSome)) =
      d?.map fun d => (d.kind, d.sampleTypes.length, d.arraySize.isSome)
  | childPath, sections?, sections?' =>
    sections?'.map (fun sections => sections.map fun s => (s.label, s.index.isSome)) =
      sections?.map fun sections => sections.map fun s => (s.label, s.index.isSome)
  | text, v, v' | flag, v, v' | path, v, v' | literal, v, v' | word _, v, v' | connectionEnd, v, v'
  | link _, v, v' => v' = v

theorem map_eq_map_iff {α β γ : Type} {f : α → β} {g : α → γ}
    (same : ∀ a b, f a = f b ↔ g a = g b) :
    {l m : List α} → (l.map f = m.map f ↔ l.map g = m.map g)
  | [], [] => by simp
  | [], _ :: _ => by simp
  | _ :: _, [] => by simp
  | a :: l, b :: m => by simp [same a b, map_eq_map_iff same (l := l) (m := m)]

theorem map_const_eq_iff {a b : Option NodeId} :
    a.map (fun _ => (⟨0⟩ : NodeId)) = b.map (fun _ => ⟨0⟩) ↔ a.isSome = b.isSome := by
  cases a <;> cases b <;> simp

/-- Values are alike when nothing tells them apart once their children are struck out. -/
theorem alike_iff_erase (ty : FieldType) (v v' : ty.Val) : ty.Alike v v' ↔ ty.erase v' = ty.erase v := by
  cases ty with
  | child c => simp [Alike, erase, mapChildren]
  | optional c => exact map_const_eq_iff.symm
  | sequence c => simp [Alike, erase, mapChildren, List.map_const']
  | labelled key => exact (map_eq_map_iff fun a b => by simp)
  | details =>
    rcases v with _ | d <;> rcases v' with _ | d'
    · simp [Alike, erase, mapChildren]
    · simp [Alike, erase, mapChildren]
    · simp [Alike, erase, mapChildren]
    · simp [Alike, erase, mapChildren, List.map_const', map_const_eq_iff]
  | childPath =>
    rcases v with _ | sections <;> rcases v' with _ | sections'
    · simp [Alike, erase, mapChildren]
    · simp [Alike, erase, mapChildren]
    · simp [Alike, erase, mapChildren]
    · simp only [Alike, erase, mapChildren, Option.map_some, Option.some.injEq]
      exact map_eq_map_iff fun a b => by simp [map_const_eq_iff]
  | _ => rfl

end FieldType

namespace Record

def Alike : (fields : List Field) → Record fields → Record fields → Prop
  | [], _, _ => True
  | f :: fields, (v, r), (v', r') => f.type.Alike v v' ∧ Alike fields r r'

theorem alike_iff_erase : (fields : List Field) → (r r' : Record fields) →
    (Alike fields r r' ↔ erase fields r' = erase fields r)
  | [], _, _ => by simp [Alike]
  | f :: fields, (v, r), (v', r') => by
    have first := FieldType.alike_iff_erase f.type v v'
    have rest := alike_iff_erase fields r r'
    rw [FieldType.erase, FieldType.erase] at first
    rw [erase, erase] at rest
    rw [Alike, erase, erase, mapChildren, mapChildren, Prod.mk.injEq, first, rest]

end Record

def Row.Alike (row row' : Row) : Prop :=
  row'.lane = row.lane ∧ row'.held.map Handle.category = row.held.map Handle.category

namespace Lane

variable {f : Handle → NodeId}

/-- Places are given by their occupants and by which of them are occupied. -/
theorem eq_of_held {lane : Lane} : {places places' : List (Option NodeId)} →
    lane.held places = lane.held places' → lane.mapPlaces f places = lane.mapPlaces f places' →
      places = places'
  | [], [], _, _ => rfl
  | [], _ :: _, _, same => by simp [mapPlaces] at same
  | _ :: _, [], _, same => by simp [mapPlaces] at same
  | none :: places, none :: places', held, same => by
    simp only [mapPlaces, List.map_cons, List.cons.injEq] at same
    have held : lane.held places = lane.held places' := by simpa [Lane.held] using held
    rw [eq_of_held held same.2]
  | none :: _, some _ :: _, _, same => by simp [mapPlaces] at same
  | some _ :: _, none :: _, _, same => by simp [mapPlaces] at same
  | some id :: places, some id' :: places', held, same => by
    simp only [mapPlaces, List.map_cons, List.cons.injEq] at same
    rw [held_cons_some, held_cons_some, List.cons.injEq, Handle.mk.injEq] at held
    rw [held.1.2, eq_of_held held.2 same.2]

theorem eq_of_rows : (lanes : List Lane) → {view view' : List (List (Option NodeId))} →
    view.length = lanes.length → view'.length = lanes.length →
    List.zipWith row lanes view = List.zipWith row lanes view' →
    List.zipWith (mapPlaces f) lanes view = List.zipWith (mapPlaces f) lanes view' → view = view'
  | [], [], [], _, _, _, _ => rfl
  | lane :: lanes, places :: view, places' :: view', aligned, aligned', rows, same => by
    rw [List.zipWith_cons_cons, List.zipWith_cons_cons, List.cons.injEq] at rows same
    have held : lane.held places = lane.held places' := congrArg Row.held rows.1
    rw [eq_of_held held same.1,
      eq_of_rows lanes (Nat.succ.inj aligned) (Nat.succ.inj aligned') rows.2 same.2]

end Lane

namespace Node

/-- The nodes have variant, span and all fields in common but for the nodes that occupied child slots
hold. -/
def Alike (n m : Node) : Prop :=
  ∃ record, m = ⟨n.tag, record, n.span⟩ ∧ Record.Alike n.tag.fields n.record record

def erase (n : Node) : Node :=
  n.mapChildren fun _ => ⟨0⟩

theorem alike_iff_erase {n m : Node} : n.Alike m ↔ m.erase = n.erase := by
  constructor
  · rintro ⟨record, rfl, alike⟩
    rw [Record.alike_iff_erase] at alike
    exact congrArg (Node.mk n.tag · n.span) alike
  · obtain ⟨tag, record, span⟩ := n
    obtain ⟨tag', record', span'⟩ := m
    intro same
    simp only [erase, mapChildren, Node.mk.injEq] at same
    obtain ⟨rfl, records, rfl⟩ := same
    exact ⟨record', rfl, (Record.alike_iff_erase _ _ _).mpr (eq_of_heq records)⟩

namespace Alike

variable {n m p : Node} {k i : Nat}

theorem refl (n : Node) : n.Alike n :=
  alike_iff_erase.mpr rfl

theorem trans (first : n.Alike m) (second : m.Alike p) : n.Alike p :=
  alike_iff_erase.mpr ((alike_iff_erase.mp second).trans (alike_iff_erase.mp first))

theorem tag (alike : n.Alike m) : m.tag = n.tag := by
  obtain ⟨record, rfl, -⟩ := alike
  rfl

theorem place? (alike : n.Alike m) (k i : Nat) :
    (m.place? k i).map Option.isSome = (n.place? k i).map Option.isSome := by
  cases here : n.tag.lanes[k]? with
  | none =>
    have there : m.tag.lanes[k]? = none := by rw [alike.tag, here]
    rw [n.place?_of_no_lane here, m.place?_of_no_lane there]
  | some lane =>
    have there : m.tag.lanes[k]? = some lane := by rw [alike.tag, here]
    have same := congrArg (fun e => (Node.place? e k i).map Option.isSome) (alike_iff_erase.mp alike)
    simpa [erase, place?_mapChildren _ here, place?_mapChildren _ there, Function.comp_def] using same

theorem occupied (alike : n.Alike m) {id : NodeId} (there : n.place? k i = some (some id)) :
    ∃ id', m.place? k i = some (some id') := by
  have same := alike.place? k i
  rw [there] at same
  obtain ⟨place, found, occupied⟩ := Option.map_eq_some_iff.mp same
  obtain ⟨id', rfl⟩ := Option.isSome_iff_exists.mp occupied
  exact ⟨id', found⟩

end Alike

/-- Alike nodes have the same rows, but for the nodes in them. -/
theorem Alike.rows {n m : Node} (alike : n.Alike m) : List.Forall₂ Row.Alike n.rows m.rows := by
  have same := congrArg Node.rows (alike_iff_erase.mp alike)
  rw [erase, erase, rows_mapChildren, rows_mapChildren, ← List.forall₂_eq_eq_eq,
    List.forall₂_map_left_iff, List.forall₂_map_right_iff] at same
  refine same.flip.imp fun row row' shape => ?_
  have lane := congrArg Row.lane shape
  have held := congrArg (fun r => r.held.map Handle.category) shape
  exact ⟨lane, by simpa [Row.map, Function.comp_def] using held⟩

theorem Alike.eq {n m : Node} (alike : n.Alike m) (same : m.rows = n.rows) : m = n := by
  obtain ⟨record, rfl, records⟩ := alike
  rw [Record.alike_iff_erase] at records
  rw [rows_eq, rows_eq] at same
  have children : record.children n.tag.fields = n.record.children n.tag.fields := by
    have views := congrArg (Record.children n.tag.fields) records
    rw [Record.erase, Record.erase, Record.children_mapChildren, Record.children_mapChildren] at views
    exact Lane.eq_of_rows _ (Record.length_children _ _) (Record.length_children _ _) same views
  rw [Record.ext_children n.tag.fields children records]

/-- Filling an occupied place changes no more than the node it holds. -/
theorem alike_fill {n : Node} {k i : Nat} {old : NodeId} (there : n.place? k i = some (some old))
    (new : NodeId) : n.Alike (n.fill k i new) :=
  alike_iff_erase.mpr (congrArg (Node.mk n.tag · n.span) (Record.erase_fill _ _ k i there new))

end Node

namespace Arena

/-- All nodes of `a` are still there in `b`, followed by those of `fresh`, and they have stayed alike. -/
def GrowsBy (a : Arena) (fresh : List Node) (b : Arena) : Prop :=
  List.Forall₂ Node.Alike (a.nodes.toList ++ fresh) b.nodes.toList

/-- The nodes of `b` that come after those of `a`. -/
def since (a b : Arena) : List Node :=
  b.nodes.toList.drop a.size

/-- Nodes were added, and all nodes have stayed alike. -/
def Grows (a b : Arena) : Prop :=
  ∃ fresh, a.GrowsBy fresh b

theorem forall₂_alike_refl (l : List Node) : List.Forall₂ Node.Alike l l :=
  List.forall₂_same.mpr fun n _ => .refl n

theorem forall₂_alike_trans {l m p : List Node} (first : List.Forall₂ Node.Alike l m)
    (second : List.Forall₂ Node.Alike m p) : List.Forall₂ Node.Alike l p := by
  induction first generalizing p with
  | nil => exact second
  | cons here _ ih =>
    cases second with
    | cons there rest => exact .cons (here.trans there) (ih rest)

theorem forall₂_alike_modify {f : Node → Node} : (l : List Node) → (i : Nat) →
    (∀ n, l[i]? = some n → n.Alike (f n)) → List.Forall₂ Node.Alike l (l.modify i f)
  | [], _, _ => by simp
  | n :: l, 0, alike => by simpa [alike n rfl] using forall₂_alike_refl l
  | n :: l, i + 1, alike => by
    simpa [Node.Alike.refl] using forall₂_alike_modify l i fun m there => alike m there

namespace GrowsBy

variable {a b c : Arena} {fresh later : List Node} {id : NodeId} {n m : Node}

theorem refl (a : Arena) : a.GrowsBy [] a := by
  simpa [GrowsBy] using forall₂_alike_refl a.nodes.toList

theorem trans (first : a.GrowsBy fresh b) (second : b.GrowsBy later c) :
    a.GrowsBy (fresh ++ later) c := by
  have kept : List.Forall₂ Node.Alike (a.nodes.toList ++ fresh ++ later) (b.nodes.toList ++ later) :=
    List.rel_append first (forall₂_alike_refl later)
  rw [List.append_assoc] at kept
  exact forall₂_alike_trans kept second

theorem alloc (n : Node) : a.GrowsBy [n] (a.alloc n).2 := by
  simpa [GrowsBy, Arena.alloc] using forall₂_alike_refl (a.nodes.toList ++ [n])

theorem put (stored : a.node id = .ok n) (alike : n.Alike m) :
    a.GrowsBy [] (a.put m.tag id m.record) := by
  rw [node_eq_ok_iff] at stored
  have ⟨record, same, _⟩ := alike
  subst same
  have kept := forall₂_alike_modify (f := fun n' => n'.withRecord n.tag record) a.nodes.toList id.index
    fun n' there => by
      obtain rfl : n = n' := by simpa [stored] using there
      exact alike
  simpa [GrowsBy, Arena.put] using kept

theorem node (grows : a.GrowsBy fresh b) (stored : a.node id = .ok n) :
    ∃ m, b.node id = .ok m ∧ n.Alike m := by
  rw [node_eq_ok_iff] at stored
  have there : (a.nodes.toList ++ fresh)[id.index]? = some n := by
    rw [List.getElem?_append_left (by simpa using (Array.getElem?_eq_some_iff.mp stored).choose)]
    simpa using stored
  obtain ⟨inside, rfl⟩ := List.getElem?_eq_some_iff.mp there
  have inside' := List.Forall₂.length_eq grows ▸ inside
  refine ⟨b.nodes.toList[id.index], node_eq_ok_iff.mpr ?_, List.Forall₂.get grows inside inside'⟩
  rw [← Array.getElem?_toList, List.getElem?_eq_getElem inside']

theorem size (grows : a.GrowsBy fresh b) : b.size = a.size + fresh.length := by
  simpa [Arena.size] using (List.Forall₂.length_eq grows).symm

theorem since (grows : a.GrowsBy fresh b) : a.GrowsBy (a.since b) b := by
  have old := List.forall₂_take a.size grows
  have size : a.nodes.toList.length = a.size := Array.length_toList
  rw [List.take_left' size] at old
  have both : List.Forall₂ Node.Alike (a.nodes.toList ++ a.since b)
      (b.nodes.toList.take a.size ++ b.nodes.toList.drop a.size) :=
    List.rel_append old (forall₂_alike_refl _)
  rwa [List.take_append_drop] at both

end GrowsBy

namespace Grows

variable {a b c : Arena} {id : NodeId} {n : Node}

theorem refl (a : Arena) : a.Grows a :=
  ⟨[], .refl a⟩

theorem trans (first : a.Grows b) (second : b.Grows c) : a.Grows c := by
  obtain ⟨fresh, first⟩ := first
  obtain ⟨later, second⟩ := second
  exact ⟨fresh ++ later, first.trans second⟩

theorem alloc (grows : a.Grows b) (n : Node) : a.Grows (b.alloc n).2 :=
  grows.trans ⟨[n], .alloc n⟩

theorem node (grows : a.Grows b) (stored : a.node id = .ok n) : ∃ m, b.node id = .ok m ∧ n.Alike m := by
  obtain ⟨fresh, grows⟩ := grows
  exact grows.node stored

theorem size_le (grows : a.Grows b) : a.size ≤ b.size := by
  obtain ⟨fresh, grows⟩ := grows
  have size := grows.size
  omega

end Grows

theorem exists_node_of_lt {a : Arena} {i : Nat} (inside : i < a.size) : ∃ n, a.node ⟨i⟩ = .ok n :=
  ⟨_, node_eq_ok_iff.mpr (Array.getElem?_eq_getElem inside)⟩

theorem eq_of_nodes {a b : Arena} (size : b.size ≤ a.size)
    (kept : ∀ id n, a.node id = .ok n → b.node id = .ok n) : b = a := by
  obtain ⟨nodes⟩ := a
  obtain ⟨nodes'⟩ := b
  congr
  have same : ∀ i (inside : i < nodes.size), nodes'[i]? = some nodes[i] := fun i inside =>
    node_eq_ok_iff.mp (kept ⟨i⟩ nodes[i] (node_eq_ok_iff.mpr (Array.getElem?_eq_getElem inside)))
  change nodes'.size ≤ nodes.size at size
  refine Array.ext ?_ fun i inside' inside => ?_
  · refine Nat.le_antisymm size ?_
    by_contra less
    have last := same (nodes.size - 1) (by omega)
    have := (Array.getElem?_eq_some_iff.mp last).choose
    omega
  · have there := same i inside
    rw [Array.getElem?_eq_getElem inside'] at there
    exact Option.some.inj there

end Arena

end ProgramTree
