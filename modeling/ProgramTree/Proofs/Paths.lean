import Mathlib.Data.Set.Card
import Mathlib.Logic.Relation
import ProgramTree.Proofs.Unfolding

/-!
Counting the ways through an arena. Below a root whose nodes lie on no cycle there are finitely many ways,
and the unfolding of the root has one node for each of them (`Unfolds.mem_routes_iff`,
`Unfolds.nodup_ways`). A way other than the empty one ends in a slot, and every slot is the end of some
way, so there are more ways than slots (`one_add_encard_slots_le`). The difference is made by nodes that
are reached in several ways and have children (`one_add_encard_slots_eq_iff`).
-/

namespace ProgramTree

def Arena.Owns (a : Arena) (id id' : NodeId) : Prop :=
  ∃ n c, a.node id = .ok n ∧ c ∈ n.children ∧ c.node = id'

/-- No node that is reached from `root` lies on a cycle. -/
def Acyclic (a : Arena) (root : Handle) : Prop :=
  ∀ h, Reaches a root h → ¬ Relation.TransGen a.Owns h.node h.node

def ways (a : Arena) (root : Handle) : Set (List (NodeId × Nat)) :=
  {way | ∃ h, Way a root way h}

/-- The ways from `root` that end at a node of variant `t`. -/
def waysTo (a : Arena) (root : Handle) (t : Tag) : Set (List (NodeId × Nat)) :=
  {way | ∃ h n, Way a root way h ∧ a.Shows h n ∧ n.tag = t}

/-- The child slots of nodes that are reached from `root`. -/
def slotsFrom (a : Arena) (root : Handle) : Set (NodeId × Nat) :=
  {slot | ∃ c, Holds a root slot c}

section Acyclic

variable {a : Arena} {root h : Handle} {way : List (NodeId × Nat)}

/-- Numbering the nodes from the root down rules out cycles. -/
theorem Acyclic.of_lt (down : ∀ {id n c}, a.node id = .ok n → c ∈ n.children → id.index < c.node.index) :
    Acyclic a root := by
  have below : ∀ {id id'}, Relation.TransGen a.Owns id id' → id.index < id'.index := by
    intro id id' path
    induction path with
    | single owns =>
      obtain ⟨n, c, stored, child, rfl⟩ := owns
      exact down stored child
    | tail _ owns ih =>
      obtain ⟨n, c, stored, child, rfl⟩ := owns
      exact ih.trans (down stored child)
  intro h _ cycle
  exact Nat.lt_irrefl _ (below cycle)

theorem Way.uncons {slot : NodeId × Nat} {c : Handle} (goes : Way a root (slot :: way) c) :
    ∃ h n j, Way a root way h ∧ a.Shows h n ∧ n.children[j]? = some c ∧ slot = (h.node, j) := by
  cases goes with
  | step before good child => exact ⟨_, _, _, before, good, child, rfl⟩

theorem Way.owner_above (goes : Way a root way h) {id : NodeId} (mem : id ∈ way.map Prod.fst) :
    Relation.TransGen a.Owns id h.node := by
  induction goes with
  | start => simp at mem
  | @step way owner c n j before good child ih =>
    have owns : a.Owns owner.node c.node := ⟨n, c, good.1, List.mem_of_getElem? child, rfl⟩
    rw [List.map_cons, List.mem_cons] at mem
    rcases mem with rfl | mem
    · exact .single owns
    · exact (ih mem).tail owns

theorem Acyclic.nodup_owners (acyclic : Acyclic a root) (goes : Way a root way h) :
    (way.map Prod.fst).Nodup := by
  induction goes with
  | start => exact List.nodup_nil
  | step before _ _ ih =>
    rw [List.map_cons, List.nodup_cons]
    exact ⟨fun mem => acyclic _ before.reaches (before.owner_above mem), ih⟩

theorem Acyclic.exists_unfolds (acyclic : Acyclic a root) (cut : Finset Tag) :
    ∃ f, Unfolds a cut [root] f :=
  Way.exists_unfolds cut acyclic.nodup_owners (a.size + 1) .start (by omega)

theorem Reaches.exists_way (reaches : Reaches a root h) : ∃ way, Way a root way h := by
  induction reaches with
  | root => exact ⟨[], .start⟩
  | child _ good child ih =>
    obtain ⟨way, goes⟩ := ih
    obtain ⟨j, child⟩ := List.getElem?_of_mem child
    exact ⟨_, goes.step good child⟩

end Acyclic

/-- The nodes of a forest with the ways to them, when the way to its tree number `i` is `start i`. -/
def Forest.routes : Forest → (start : Nat → List (NodeId × Nat)) →
    List (List (NodeId × Nat) × Handle × Node)
  | nil, _ => []
  | stub _ rest, start => rest.routes fun i => start (i + 1)
  | node h n kids rest, start =>
    (start 0, h, n) ::
      (kids.routes (fun j => (h.node, j) :: start 0) ++ rest.routes fun i => start (i + 1))

namespace Forest

variable {start : Nat → List (NodeId × Nat)}

theorem map_snd_routes (f : Forest) (start : Nat → List (NodeId × Nat)) :
    (f.routes start).map Prod.snd = f.nodes := by
  induction f generalizing start with
  | nil => rfl
  | stub h rest ih => exact ih _
  | node h n kids rest ihKids ihRest => simp [routes, nodes, ihKids, ihRest]

theorem exists_start {f : Forest} {way : List (NodeId × Nat)} (mem : way ∈ (f.routes start).map Prod.fst) :
    ∃ i before, way = before ++ start i := by
  induction f generalizing start with
  | nil => simp [routes] at mem
  | stub h rest ih =>
    obtain ⟨i, before, rfl⟩ := ih mem
    exact ⟨i + 1, before, rfl⟩
  | node h n kids rest ihKids ihRest =>
    simp only [routes, List.map_cons, List.map_append, List.mem_cons, List.mem_append] at mem
    rcases mem with rfl | mem | mem
    · exact ⟨0, [], rfl⟩
    · obtain ⟨j, before, rfl⟩ := ihKids mem
      exact ⟨0, before ++ [(h.node, j)], by simp⟩
    · obtain ⟨i, before, rfl⟩ := ihRest mem
      exact ⟨i + 1, before, rfl⟩

theorem slot_of_append {id : NodeId} {j j' : Nat} {way before before' : List (NodeId × Nat)}
    (same : before ++ (id, j) :: way = before' ++ (id, j') :: way) : j = j' := by
  simpa using List.append_inj_right' same rfl

theorem nodup_routes {f : Forest}
    (apart : ∀ {i i' before before'}, before ++ start i = before' ++ start i' → i = i') :
    ((f.routes start).map Prod.fst).Nodup := by
  induction f generalizing start with
  | nil => exact List.nodup_nil
  | stub h rest ih => exact ih fun same => Nat.succ.inj (apart same)
  | node h n kids rest ihKids ihRest =>
    have left : ((kids.routes fun j => (h.node, j) :: start 0).map Prod.fst).Nodup :=
      ihKids slot_of_append
    have right : ((rest.routes fun i => start (i + 1)).map Prod.fst).Nodup :=
      ihRest fun same => Nat.succ.inj (apart same)
    simp only [routes, List.map_cons, List.map_append, List.nodup_cons, List.mem_append]
    refine ⟨?_, List.nodup_append.mpr ⟨left, right, ?_⟩⟩
    -- What is below has a longer way, and what is to the right has another start.
    · rintro (mem | mem)
      · obtain ⟨j, before, same⟩ := exists_start mem
        have lengths := congrArg List.length same
        simp at lengths
        omega
      · obtain ⟨i, before, same⟩ := exists_start mem
        have other : [] ++ start 0 = before ++ start (i + 1) := same
        simpa using apart other
    · intro way mem way' mem' same
      obtain ⟨j, before, rfl⟩ := exists_start mem
      obtain ⟨i, before', rfl⟩ := exists_start mem'
      have other : (before ++ [(h.node, j)]) ++ start 0 = before' ++ start (i + 1) := by
        simpa using same
      simpa using apart other

end Forest

namespace Unfolds

variable {a : Arena} {root h c : Handle} {n m : Node} {hs : List Handle} {f : Forest}
  {start : Nat → List (NodeId × Nat)} {way : List (NodeId × Nat)} {j : Nat}

theorem way_of_mem_routes (unfolds : Unfolds a ∅ hs f)
    (starts : ∀ i c, hs[i]? = some c → Way a root (start i) c) :
    ∀ r ∈ f.routes start, Way a root r.1 r.2.1 ∧ a.Shows r.2.1 r.2.2 := by
  induction unfolds generalizing start with
  | nil => simp [Forest.routes]
  | stub _ _ ih => exact ih fun i c there => starts (i + 1) c there
  | cut _ tag _ _ => simp at tag
  | node good _ _ _ ihKids ihRest =>
    simp only [Forest.routes, List.mem_cons, List.mem_append]
    rintro r (rfl | mem | mem)
    · exact ⟨starts 0 _ rfl, good⟩
    · exact ihKids (fun j c child => (starts 0 _ rfl).step good child) r mem
    · exact ihRest (fun i c there => starts (i + 1) c there) r mem

theorem mem_routes_of_head (unfolds : Unfolds a ∅ hs f) (there : hs[j]? = some c) (good : a.Shows c m) :
    (start j, c, m) ∈ f.routes start := by
  induction unfolds generalizing start j with
  | nil => simp at there
  | stub bad _ ih =>
    cases j with
    | zero =>
      obtain rfl : _ = c := by simpa using there
      exact absurd good (bad m)
    | succ j => exact ih there
  | cut _ tag _ _ => simp at tag
  | @node _ _ _ _ rest good' _ _ _ _ ihRest =>
    cases j with
    | zero =>
      obtain rfl : _ = c := by simpa using there
      rw [good'.unique good]
      exact List.mem_cons_self
    | succ j =>
      have right : (start (j + 1), c, m) ∈ rest.routes fun i => start (i + 1) := ihRest there
      exact List.mem_cons_of_mem _ (List.mem_append_right _ right)

/-- A way to a node goes on to its children. -/
theorem mem_routes_of_child (unfolds : Unfolds a ∅ hs f) (mem : (way, h, n) ∈ f.routes start)
    (child : n.children[j]? = some c) (good : a.Shows c m) :
    ((h.node, j) :: way, c, m) ∈ f.routes start := by
  induction unfolds generalizing start with
  | nil => simp [Forest.routes] at mem
  | stub _ _ ih => exact ih mem
  | cut _ tag _ _ => simp at tag
  | node _ _ below _ ihKids ihRest =>
    simp only [Forest.routes, List.mem_cons, List.mem_append] at mem ⊢
    rcases mem with same | mem | mem
    · cases same
      exact .inr (.inl (below.mem_routes_of_head child good))
    · exact .inr (.inl (ihKids mem))
    · exact .inr (.inr (ihRest mem))

/-- The unfolding shows all ways to nodes. -/
theorem mem_routes_iff (unfolds : Unfolds a ∅ [root] f) :
    (way, h, n) ∈ f.routes (fun _ => []) ↔ Way a root way h ∧ a.Shows h n := by
  constructor
  · intro mem
    refine unfolds.way_of_mem_routes (fun i c there => ?_) _ mem
    obtain rfl := List.mem_singleton.mp (List.mem_of_getElem? there)
    exact .start
  · rintro ⟨goes, good⟩
    induction goes generalizing n with
    | start => exact unfolds.mem_routes_of_head (j := 0) rfl good
    | step _ good' child ih => exact unfolds.mem_routes_of_child (ih good') child good

theorem nodup_ways (unfolds : Unfolds a ∅ [root] f) : ((f.routes fun _ => []).map Prod.fst).Nodup := by
  cases unfolds with
  | stub _ rest =>
    cases rest
    exact List.nodup_nil
  | cut _ tag _ => simp at tag
  | @node _ n _ kids _ _ _ _ rest =>
    cases rest
    have below : ((kids.routes fun j => [(root.node, j)]).map Prod.fst).Nodup :=
      Forest.nodup_routes Forest.slot_of_append
    simp only [Forest.routes, List.append_nil, List.map_cons, List.nodup_cons]
    refine ⟨fun mem => ?_, below⟩
    obtain ⟨j, before, same⟩ := Forest.exists_start mem
    simp at same

end Unfolds

theorem encard_of_nodup {α : Type} {s : Set α} {l : List α} (distinct : l.Nodup) (mem : ∀ x, x ∈ s ↔ x ∈ l) :
    s.encard = l.length := by
  classical
  have same : s = l.toFinset := by
    ext x
    simp [mem]
  rw [same, Set.encard_coe_eq_coe_finsetCard, List.toFinset_card_of_nodup distinct]

namespace Unfolds

variable {a : Arena} {root : Handle} {f : Forest}

/-- There are as many ways to nodes of a variant as the unfolding has nodes of it. -/
theorem encard_waysTo (unfolds : Unfolds a ∅ [root] f) (t : Tag) :
    (waysTo a root t).encard = (f.nodes.map fun p => p.2.tag).count t := by
  let hits := (f.routes fun _ => []).filter fun r => r.2.2.tag == t
  have distinct : (hits.map Prod.fst).Nodup := unfolds.nodup_ways.sublist (List.filter_sublist.map _)
  have size : (hits.map Prod.fst).length = (f.nodes.map fun p => p.2.tag).count t := by
    rw [List.length_map, ← f.map_snd_routes fun _ => [], List.map_map, List.count_eq_countP,
      List.countP_map, List.countP_eq_length_filter]
    rfl
  rw [← size]
  apply encard_of_nodup distinct
  intro way
  simp only [hits, List.mem_map, List.mem_filter, beq_iff_eq]
  constructor
  · rintro ⟨h, n, goes, good, tag⟩
    exact ⟨(way, h, n), ⟨unfolds.mem_routes_iff.mpr ⟨goes, good⟩, tag⟩, rfl⟩
  · rintro ⟨⟨_, h, n⟩, ⟨mem, tag⟩, rfl⟩
    obtain ⟨goes, good⟩ := unfolds.mem_routes_iff.mp mem
    exact ⟨h, n, goes, good, tag⟩

theorem encard_ways (unfolds : Unfolds a ∅ [root] f) (good : ∀ h, Reaches a root h → ∃ n, a.Shows h n) :
    (ways a root).encard = f.nodes.length := by
  rw [← f.map_snd_routes fun _ => [], List.length_map, ← List.length_map Prod.fst]
  apply encard_of_nodup unfolds.nodup_ways
  intro way
  constructor
  · rintro ⟨h, goes⟩
    obtain ⟨n, shown⟩ := good h goes.reaches
    exact List.mem_map.mpr ⟨(way, h, n), unfolds.mem_routes_iff.mpr ⟨goes, shown⟩, rfl⟩
  · intro mem
    obtain ⟨⟨_, h, n⟩, there, rfl⟩ := List.mem_map.mp mem
    exact ⟨h, (unfolds.mem_routes_iff.mp there).1⟩

end Unfolds

section Slots

variable {a : Arena} {root : Handle}

/-- The ways that are not empty, with the slot they end in set apart. -/
def longWays (a : Arena) (root : Handle) : Set ((NodeId × Nat) × List (NodeId × Nat)) :=
  {p | ∃ h, Way a root (p.1 :: p.2) h}

theorem encard_ways_eq (a : Arena) (root : Handle) : (ways a root).encard = (longWays a root).encard + 1 := by
  have split : ways a root = insert [] ((fun p => p.1 :: p.2) '' longWays a root) := by
    ext way
    constructor
    · rintro ⟨h, goes⟩
      cases way with
      | nil => exact .inl rfl
      | cons slot way => exact .inr ⟨(slot, way), ⟨h, goes⟩, rfl⟩
    · rintro (rfl | ⟨p, ⟨h, goes⟩, rfl⟩)
      · exact ⟨root, .start⟩
      · exact ⟨h, goes⟩
  have cons : Function.Injective fun p : (NodeId × Nat) × List (NodeId × Nat) => p.1 :: p.2 := by
    intro p q same
    exact Prod.ext (List.cons.inj same).1 (List.cons.inj same).2
  rw [split, Set.encard_insert_of_notMem (by simp), cons.encard_image]

theorem image_fst_longWays (a : Arena) (root : Handle) : Prod.fst '' longWays a root = slotsFrom a root := by
  ext slot
  constructor
  · rintro ⟨p, ⟨c, goes⟩, rfl⟩
    obtain ⟨h, n, j, before, good, child, same⟩ := goes.uncons
    exact ⟨c, same ▸ before.holds good child⟩
  · rintro ⟨c, h, n, reaches, good, owner, child⟩
    obtain ⟨way, goes⟩ := reaches.exists_way
    refine ⟨(slot, way), ⟨c, ?_⟩, rfl⟩
    have onward := goes.step good child
    rwa [owner] at onward

theorem one_add_encard_slots_le (a : Arena) (root : Handle) :
    1 + (slotsFrom a root).encard ≤ (ways a root).encard := by
  rw [encard_ways_eq, ← image_fst_longWays, add_comm]
  gcongr
  exact Set.encard_image_le _ _

/-- A slot is the end of one way only exactly when its owner is reached in one way only. -/
theorem injOn_fst_longWays_iff (good : ∀ h, Reaches a root h → ∃ n, a.Shows h n) :
    Set.InjOn Prod.fst (longWays a root) ↔
      ∀ way way' h h' n, Way a root way h → Way a root way' h' → way ≠ way' → h.node = h'.node →
        a.Shows h n → n.children = [] := by
  constructor
  · intro injective way way' h h' n goes goes' apart same shown
    cases children : n.children with
    | nil => rfl
    | cons c rest =>
      obtain ⟨n', shown'⟩ := good h' goes'.reaches
      obtain rfl : n' = n := Except.ok.inj (shown'.1.symm.trans (same ▸ shown.1))
      have child : n'.children[0]? = some c := by simp [children]
      have first : ((h.node, 0), way) ∈ longWays a root := ⟨c, goes.step shown child⟩
      have second : ((h.node, 0), way') ∈ longWays a root := ⟨c, same ▸ goes'.step shown' child⟩
      exact absurd (congrArg Prod.snd (injective first second rfl)) apart
  · rintro lone ⟨slot, way⟩ ⟨c, goes⟩ ⟨slot', way'⟩ ⟨c', goes'⟩ same
    obtain rfl : slot = slot' := same
    by_cases equal : way = way'
    · rw [equal]
    · obtain ⟨h, n, j, before, shown, child, rfl⟩ := goes.uncons
      obtain ⟨h', _, _, before', -, -, owner⟩ := goes'.uncons
      have none := lone way way' h h' n before before' equal (congrArg Prod.fst owner) shown
      simp [none] at child

theorem one_add_encard_slots_eq_iff (good : ∀ h, Reaches a root h → ∃ n, a.Shows h n)
    (finite : (ways a root).Finite) :
    1 + (slotsFrom a root).encard = (ways a root).encard ↔
      ∀ way way' h h' n, Way a root way h → Way a root way' h' → way ≠ way' → h.node = h'.node →
        a.Shows h n → n.children = [] := by
  have long : (longWays a root).Finite := by
    rw [← Set.encard_lt_top_iff] at finite ⊢
    rw [encard_ways_eq] at finite
    exact le_self_add.trans_lt finite
  rw [← injOn_fst_longWays_iff good, encard_ways_eq, ← image_fst_longWays, add_comm,
    (ENat.add_left_injective_of_ne_top ENat.one_ne_top).eq_iff]
  exact ⟨long.injOn_of_encard_image_eq, Set.InjOn.encard_image⟩

end Slots

end ProgramTree
