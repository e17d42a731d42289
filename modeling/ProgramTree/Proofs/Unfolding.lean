import Mathlib.Data.Finset.Basic
import Mathlib.Data.List.Perm.Subperm
import Mathlib.Tactic.Tauto
import ProgramTree.Proofs.Slots

/-!
The trees that are stored in an arena. Following child slots from a handle unfolds the arena into a
forest, with a node once for every way to it; a handle that names no node of its category is a stub.
`Unfolds` is the relation, so that an arena with a cycle has no unfolding there.

Where every node is held by one slot at most (`SingleOwner`), a node is reached in one way only. Then
there is an unfolding (`SingleOwner.exists_unfolds`) and no node occurs in it twice
(`SingleOwner.nodup_ids`).
-/

namespace ProgramTree

/-- The handle `h` names the node `n`, which is of the handle's category. -/
def Arena.Shows (a : Arena) (h : Handle) (n : Node) : Prop :=
  a.node h.node = .ok n ∧ n.category = h.category

theorem Arena.Shows.unique {a : Arena} {h : Handle} {n n' : Node} (one : a.Shows h n)
    (other : a.Shows h n') : n = n' :=
  Except.ok.inj (one.1.symm.trans other.1)

theorem World.classify_of_shows {σ : Type} {w : World σ} {h : Handle} {n : Node}
    (good : w.arena.Shows h n) : World.classify h w = (.ok n.tag, w) := by
  have category : n.tag.category = h.category := good.2
  rw [World.classify, good.1]
  simp only [category, if_true]

theorem World.classify_of_stub {σ : Type} {w : World σ} {h : Handle} (bad : ∀ n, ¬ w.arena.Shows h n) :
    ∃ e, (World.classify h w).1 = .error e := by
  unfold World.classify
  cases found : w.arena.node h.node with
  | error e => exact ⟨e, rfl⟩
  | ok n =>
    have category : n.tag.category ≠ h.category := fun same => bad n ⟨found, same⟩
    simp only [category, if_false]
    exact ⟨_, rfl⟩

/-- Trees side by side. A node has been reached by its handle; a stub is a handle that leads
nowhere. -/
inductive Forest where
  | nil
  | stub (h : Handle) (rest : Forest)
  | node (h : Handle) (n : Node) (kids rest : Forest)

namespace Forest

/-- All handles, those of a node before those below it. -/
def preorder : Forest → List Handle
  | nil => []
  | stub h rest => h :: rest.preorder
  | node h _ kids rest => h :: (kids.preorder ++ rest.preorder)

/-- The handles of nodes, those of a node after those below it. -/
def postorder : Forest → List Handle
  | nil => []
  | stub _ rest => rest.postorder
  | node h _ kids rest => kids.postorder ++ h :: rest.postorder

def nodes : Forest → List (Handle × Node)
  | nil => []
  | stub _ rest => rest.nodes
  | node h n kids rest => (h, n) :: (kids.nodes ++ rest.nodes)

def handles (f : Forest) : List Handle :=
  f.nodes.map Prod.fst

def ids (f : Forest) : List NodeId :=
  f.nodes.map fun p => p.1.node

def stubs : Forest → List Handle
  | nil => []
  | stub h rest => h :: rest.stubs
  | node _ _ kids rest => kids.stubs ++ rest.stubs

def append : Forest → Forest → Forest
  | nil, g => g
  | stub h rest, g => stub h (rest.append g)
  | node h n kids rest, g => node h n kids (rest.append g)

/-- Every tree of the forest satisfies `P`, which is also told its handle. -/
def Each (P : Handle → Forest → Prop) : Forest → Prop
  | nil => True
  | stub h rest => P h (stub h nil) ∧ rest.Each P
  | node h n kids rest => P h (node h n kids nil) ∧ rest.Each P

section Append

variable (f g : Forest)

theorem preorder_append : (f.append g).preorder = f.preorder ++ g.preorder := by
  induction f with
  | nil => rfl
  | stub h rest ih => simp [append, preorder, ih]
  | node h n kids rest _ ih => simp [append, preorder, ih]

theorem postorder_append : (f.append g).postorder = f.postorder ++ g.postorder := by
  induction f with
  | nil => rfl
  | stub h rest ih => simp [append, postorder, ih]
  | node h n kids rest _ ih => simp [append, postorder, ih]

theorem nodes_append : (f.append g).nodes = f.nodes ++ g.nodes := by
  induction f with
  | nil => rfl
  | stub h rest ih => simp [append, nodes, ih]
  | node h n kids rest _ ih => simp [append, nodes, ih]

theorem stubs_append : (f.append g).stubs = f.stubs ++ g.stubs := by
  induction f with
  | nil => rfl
  | stub h rest ih => simp [append, stubs, ih]
  | node h n kids rest _ ih => simp [append, stubs, ih]

theorem handles_append : (f.append g).handles = f.handles ++ g.handles := by
  simp [handles, nodes_append]

theorem ids_append : (f.append g).ids = f.ids ++ g.ids := by
  simp [ids, nodes_append]

theorem append_assoc (k : Forest) : (f.append g).append k = f.append (g.append k) := by
  induction f with
  | nil => rfl
  | stub h rest ih => simp [append, ih]
  | node h n kids rest _ ih => simp [append, ih]

theorem append_nil : f.append nil = f := by
  induction f with
  | nil => rfl
  | stub h rest ih => simp [append, ih]
  | node h n kids rest _ ih => simp [append, ih]

end Append

theorem mem_ids {f : Forest} {h : Handle} (mem : h ∈ f.handles) : h.node ∈ f.ids := by
  obtain ⟨p, there, rfl⟩ := List.mem_map.mp mem
  exact List.mem_map_of_mem there

theorem handles_node (h : Handle) (n : Node) (kids rest : Forest) :
    (node h n kids rest).handles = h :: (kids.handles ++ rest.handles) := by
  simp [handles, nodes]

theorem mem_preorder_iff (f : Forest) (h : Handle) :
    h ∈ f.preorder ↔ h ∈ f.handles ∨ h ∈ f.stubs := by
  induction f with
  | nil => simp [preorder, handles, nodes, stubs]
  | stub h' rest ih =>
    have handles : (stub h' rest).handles = rest.handles := rfl
    rw [preorder, handles, stubs, List.mem_cons, List.mem_cons, ih]
    tauto
  | node h' n kids rest ihKids ihRest =>
    rw [preorder, handles_node, stubs, List.mem_cons, List.mem_cons, List.mem_append, List.mem_append,
      List.mem_append, ihKids, ihRest]
    tauto

theorem handles_eq_preorder {f : Forest} (none : f.stubs = []) : f.handles = f.preorder := by
  induction f with
  | nil => rfl
  | stub h rest _ => cases none
  | node h n kids rest ihKids ihRest =>
    rw [stubs, List.append_eq_nil_iff] at none
    rw [handles_node, preorder, ihKids none.1, ihRest none.2]

theorem postorder_perm (f : Forest) : f.postorder.Perm f.handles := by
  induction f with
  | nil => exact .nil
  | stub h rest ih => exact ih
  | node h n kids rest ihKids ihRest =>
    rw [handles_node]
    exact List.perm_middle.trans (.cons h (ihKids.append ihRest))

theorem mem_postorder (f : Forest) (h : Handle) : h ∈ f.postorder ↔ h ∈ f.handles :=
  f.postorder_perm.mem_iff

theorem nodup_postorder {f : Forest} (distinct : f.ids.Nodup) : f.postorder.Nodup := by
  have handles : f.handles.Nodup := by
    refine List.Nodup.of_map Handle.node ?_
    rwa [handles, List.map_map]
  exact f.postorder_perm.nodup_iff.mpr handles

end Forest

/-- The forest that the handles unfold to. Nodes of a variant in `cut` are leaves. -/
inductive Unfolds (a : Arena) (cut : Finset Tag) : List Handle → Forest → Prop where
  | nil : Unfolds a cut [] .nil
  | stub {h : Handle} {hs : List Handle} {rest : Forest} :
      (∀ n, ¬ a.Shows h n) → Unfolds a cut hs rest → Unfolds a cut (h :: hs) (.stub h rest)
  | cut {h : Handle} {n : Node} {hs : List Handle} {rest : Forest} :
      a.Shows h n → n.tag ∈ cut → Unfolds a cut hs rest →
        Unfolds a cut (h :: hs) (.node h n .nil rest)
  | node {h : Handle} {n : Node} {hs : List Handle} {kids rest : Forest} :
      a.Shows h n → n.tag ∉ cut → Unfolds a cut n.children kids → Unfolds a cut hs rest →
        Unfolds a cut (h :: hs) (.node h n kids rest)

/-- What is reached from `root` through child slots. Nothing lies behind a handle that leads
nowhere. -/
inductive Reaches (a : Arena) (root : Handle) : Handle → Prop where
  | root : Reaches a root root
  | child {h c : Handle} {n : Node} :
      Reaches a root h → a.Shows h n → c ∈ n.children → Reaches a root c

namespace Unfolds

variable {a a' : Arena} {cut : Finset Tag} {hs hs' : List Handle} {f g : Forest} {root : Handle}

theorem append (first : Unfolds a cut hs f) (second : Unfolds a cut hs' g) :
    Unfolds a cut (hs ++ hs') (f.append g) := by
  induction first with
  | nil => exact second
  | stub bad _ ih => exact .stub bad ih
  | cut good tag _ ih => exact .cut good tag ih
  | node good tag kids _ _ ih => exact .node good tag kids ih

theorem uncons {h : Handle} (unfolds : Unfolds a ∅ (h :: hs) f) :
    ∃ t rest, f = t.append rest ∧ Unfolds a ∅ [h] t ∧ Unfolds a ∅ hs rest ∧
      ∀ P : Handle → Forest → Prop, f.Each P → P h t ∧ rest.Each P := by
  cases unfolds with
  | stub bad rest => exact ⟨.stub h .nil, _, rfl, .stub bad .nil, rest, fun _ each => each⟩
  | cut _ tag _ => simp at tag
  | @node _ n _ kids _ good tag below rest =>
    exact ⟨.node h n kids .nil, _, rfl, .node good tag below .nil, rest, fun _ each => each⟩

theorem exists_of_forall {hs : List Handle} (each : ∀ h ∈ hs, ∃ f, Unfolds a cut [h] f) :
    ∃ f, Unfolds a cut hs f := by
  induction hs with
  | nil => exact ⟨_, .nil⟩
  | cons h hs ih =>
    obtain ⟨first, unfolds⟩ := each h List.mem_cons_self
    obtain ⟨rest, unfolds'⟩ := ih fun h mem => each h (List.mem_cons_of_mem _ mem)
    exact ⟨_, unfolds.append unfolds'⟩

theorem mem_preorder (unfolds : Unfolds a cut hs f) : ∀ h ∈ hs, h ∈ f.preorder := by
  induction unfolds with
  | nil => simp
  | stub _ _ ih | cut _ _ _ ih | node _ _ _ _ _ ih =>
    intro h mem
    rcases List.mem_cons.mp mem with rfl | mem
    · exact List.mem_cons_self
    · simp [Forest.preorder, ih h mem]

theorem shows_of_mem (unfolds : Unfolds a cut hs f) : ∀ p ∈ f.nodes, a.Shows p.1 p.2 := by
  induction unfolds with
  | nil => simp [Forest.nodes]
  | stub _ _ ih => exact ih
  | cut good _ _ ih =>
    simp only [Forest.nodes, List.nil_append, List.mem_cons]
    rintro p (rfl | mem)
    · exact good
    · exact ih p mem
  | node good _ _ _ ihKids ihRest =>
    simp only [Forest.nodes, List.mem_cons, List.mem_append]
    rintro p (rfl | mem | mem)
    · exact good
    · exact ihKids p mem
    · exact ihRest p mem

theorem mem_nodes (unfolds : Unfolds a cut hs f) {h : Handle} {n : Node} (mem : h ∈ f.preorder)
    (good : a.Shows h n) : (h, n) ∈ f.nodes := by
  induction unfolds with
  | nil => simp [Forest.preorder] at mem
  | stub bad _ ih =>
    rcases List.mem_cons.mp mem with rfl | mem
    · exact absurd good (bad n)
    · exact ih mem
  | cut good' _ _ ih =>
    rcases List.mem_cons.mp mem with rfl | mem
    · rw [good.unique good']
      exact List.mem_cons_self
    · exact List.mem_cons_of_mem _ (ih mem)
  | node good' _ _ _ ihKids ihRest =>
    rcases List.mem_cons.mp mem with rfl | mem
    · rw [good.unique good']
      exact List.mem_cons_self
    · rcases List.mem_append.mp mem with mem | mem
      · exact List.mem_cons_of_mem _ (List.mem_append_left _ (ihKids mem))
      · exact List.mem_cons_of_mem _ (List.mem_append_right _ (ihRest mem))

theorem not_shows_of_mem_stubs (unfolds : Unfolds a cut hs f) : ∀ h ∈ f.stubs, ∀ n, ¬ a.Shows h n := by
  induction unfolds with
  | nil => simp [Forest.stubs]
  | stub bad _ ih => exact List.forall_mem_cons.mpr ⟨bad, ih⟩
  | cut _ _ _ ih => exact ih
  | node _ _ _ _ ihKids ihRest => exact List.forall_mem_append.mpr ⟨ihKids, ihRest⟩

theorem not_mem_handles (unfolds : Unfolds a cut hs f) (unfolds' : Unfolds a cut hs' g)
    (apart : f.ids.Disjoint g.ids) {c : Handle} (mem : c ∈ f.preorder) : c ∉ g.handles := by
  intro mem'
  obtain ⟨p, there, rfl⟩ := List.mem_map.mp mem'
  have here := unfolds.mem_nodes mem (unfolds'.shows_of_mem p there)
  exact apart (List.mem_map_of_mem here) (List.mem_map_of_mem there)

/-- Without a cut, the children of a node are below it. -/
theorem children_mem (unfolds : Unfolds a ∅ hs f) :
    ∀ p ∈ f.nodes, ∀ c ∈ p.2.children, c ∈ f.preorder := by
  induction unfolds with
  | nil => simp [Forest.nodes]
  | stub _ _ ih => exact fun p mem c child => List.mem_cons_of_mem _ (ih p mem c child)
  | cut _ tag _ _ => simp at tag
  | node _ _ kids _ ihKids ihRest =>
    simp only [Forest.nodes, Forest.preorder, List.mem_cons, List.mem_append]
    rintro p (rfl | mem | mem) c child
    · exact .inr (.inl (kids.mem_preorder c child))
    · exact .inr (.inl (ihKids p mem c child))
    · exact .inr (.inr (ihRest p mem c child))

theorem mem_preorder_of_reaches (unfolds : Unfolds a ∅ [root] f) {h : Handle}
    (reaches : Reaches a root h) : h ∈ f.preorder := by
  induction reaches with
  | root => exact unfolds.mem_preorder root List.mem_cons_self
  | child _ good child ih => exact unfolds.children_mem _ (unfolds.mem_nodes ih good) _ child

theorem reaches_of_mem (unfolds : Unfolds a cut hs f) (start : ∀ h ∈ hs, Reaches a root h) :
    ∀ h ∈ f.preorder, Reaches a root h := by
  induction unfolds with
  | nil => simp [Forest.preorder]
  | stub _ _ ih | cut _ _ _ ih =>
    intro h mem
    rcases List.mem_cons.mp mem with rfl | mem
    · exact start _ List.mem_cons_self
    · exact ih (fun h mem => start h (List.mem_cons_of_mem _ mem)) h mem
  | node good _ _ _ ihKids ihRest =>
    have first := start _ List.mem_cons_self
    simp only [Forest.preorder, List.mem_cons, List.mem_append]
    rintro h (rfl | mem | mem)
    · exact first
    · exact ihKids (fun c child => first.child good child) h mem
    · exact ihRest (fun h mem => start h (List.mem_cons_of_mem _ mem)) h mem

theorem reaches_of_mem_preorder (unfolds : Unfolds a cut [root] f) : ∀ h ∈ f.preorder, Reaches a root h :=
  unfolds.reaches_of_mem fun _ only => List.mem_singleton.mp only ▸ .root

theorem reaches_of_mem_nodes (unfolds : Unfolds a cut [root] f) : ∀ p ∈ f.nodes, Reaches a root p.1 :=
  fun p mem => unfolds.reaches_of_mem_preorder p.1
    ((f.mem_preorder_iff p.1).mpr (.inl (List.mem_map_of_mem mem)))

theorem stubs_eq_nil (unfolds : Unfolds a ∅ [root] f)
    (good : ∀ h, Reaches a root h → ∃ n, a.Shows h n) : f.stubs = [] := by
  apply List.eq_nil_iff_forall_not_mem.mpr
  intro h mem
  obtain ⟨n, shown⟩ := good h (unfolds.reaches_of_mem_preorder h ((f.mem_preorder_iff h).mpr (.inr mem)))
  exact unfolds.not_shows_of_mem_stubs h mem n shown

theorem shows_of_reaches (unfolds : Unfolds a ∅ [root] f) (none : f.stubs = []) {h : Handle}
    (reaches : Reaches a root h) : ∃ n, a.Shows h n := by
  have inside := (f.mem_preorder_iff h).mp (unfolds.mem_preorder_of_reaches reaches)
  rw [none] at inside
  obtain ⟨p, mem, rfl⟩ := List.mem_map.mp (inside.resolve_right List.not_mem_nil)
  exact ⟨p.2, unfolds.shows_of_mem p mem⟩

theorem unique (unfolds : Unfolds a cut hs f) (other : Unfolds a cut hs g) : f = g := by
  induction unfolds generalizing g with
  | nil => cases other; rfl
  | stub bad _ ih =>
    cases other with
    | stub _ rest => rw [ih rest]
    | cut good _ _ => exact absurd good (bad _)
    | node good _ _ _ => exact absurd good (bad _)
  | cut good tag _ ih =>
    cases other with
    | stub bad _ => exact absurd good (bad _)
    | cut good' _ rest => rw [good.unique good', ih rest]
    | node good' tag' _ _ => exact absurd (good.unique good' ▸ tag) tag'
  | node good tag _ _ ihKids ihRest =>
    cases other with
    | stub bad _ => exact absurd good (bad _)
    | cut good' tag' _ => exact absurd (good.unique good' ▸ tag') tag
    | node good' _ kids rest =>
      obtain rfl := good.unique good'
      rw [ihKids kids, ihRest rest]

/-- An unfolding stays one as long as its nodes and its stubs do. -/
theorem transfer (unfolds : Unfolds a ∅ hs f)
    (nodes : ∀ p ∈ f.nodes, a'.node p.1.node = .ok p.2)
    (stubs : ∀ h ∈ f.stubs, ∀ n, ¬ a'.Shows h n) : Unfolds a' ∅ hs f := by
  induction unfolds with
  | nil => exact .nil
  | stub _ _ ih =>
    exact .stub (stubs _ List.mem_cons_self)
      (ih nodes fun h mem => stubs h (List.mem_cons_of_mem _ mem))
  | cut _ tag _ _ => simp at tag
  | node good tag _ _ ihKids ihRest =>
    simp only [Forest.nodes, List.forall_mem_cons, List.forall_mem_append] at nodes
    simp only [Forest.stubs, List.forall_mem_append] at stubs
    exact .node ⟨nodes.1, good.2⟩ tag (ihKids nodes.2.1 stubs.1) (ihRest nodes.2.2 stubs.2)

end Unfolds

/-- A child slot of a node that is reached from `root`, and its occupant. The slot is given by the
node and the number of the child. -/
def Holds (a : Arena) (root : Handle) (slot : NodeId × Nat) (c : Handle) : Prop :=
  ∃ h n, Reaches a root h ∧ a.Shows h n ∧ h.node = slot.1 ∧ n.children[slot.2]? = some c

/-- Every node is held by one slot at most, and `root` by none. -/
structure SingleOwner (a : Arena) (root : Handle) : Prop where
  root_unheld : ∀ {slot c}, Holds a root slot c → c.node ≠ root.node
  one_slot : ∀ {slot slot' c c' n}, Holds a root slot c → Holds a root slot' c' →
    c.node = c'.node → a.node c.node = .ok n → slot = slot'

/-- A way from `root` to a handle: the slots on it, the last one first. -/
inductive Way (a : Arena) (root : Handle) : List (NodeId × Nat) → Handle → Prop where
  | start : Way a root [] root
  | step {way : List (NodeId × Nat)} {h c : Handle} {n : Node} {j : Nat} :
      Way a root way h → a.Shows h n → n.children[j]? = some c → Way a root ((h.node, j) :: way) c

namespace Way

variable {a : Arena} {root h h' : Handle} {way way' : List (NodeId × Nat)}

theorem reaches (goes : Way a root way h) : Reaches a root h := by
  induction goes with
  | start => exact .root
  | step _ good child ih => exact ih.child good (List.mem_of_getElem? child)

theorem holds {n : Node} {j : Nat} (goes : Way a root way h) (good : a.Shows h n)
    (child : n.children[j]? = some h') : Holds a root (h.node, j) h' :=
  ⟨h, n, goes.reaches, good, rfl, child⟩

theorem owner_reached (goes : Way a root way h) {id : NodeId} (mem : id ∈ way.map Prod.fst) :
    ∃ (earlier : List (NodeId × Nat)) (owner : Handle) (n : Node),
      earlier.length < way.length ∧ Way a root earlier owner ∧ owner.node = id ∧ a.Shows owner n := by
  induction goes with
  | start => simp at mem
  | @step way owner _ n _ before good _ ih =>
    rw [List.map_cons, List.mem_cons] at mem
    rcases mem with rfl | mem
    · exact ⟨way, owner, n, Nat.lt_succ_self _, before, rfl, good⟩
    · obtain ⟨earlier, owner, n, shorter, goes, same, good⟩ := ih mem
      exact ⟨earlier, owner, n, Nat.lt_succ_of_lt shorter, goes, same, good⟩

theorem length_le (goes : Way a root way h) (distinct : (way.map Prod.fst).Nodup) :
    way.length ≤ a.size := by
  have inside : ((way.map Prod.fst).map NodeId.index) ⊆ List.range a.size := by
    intro index mem
    obtain ⟨id, onWay, rfl⟩ := List.mem_map.mp mem
    obtain ⟨_, owner, n, _, _, rfl, good⟩ := goes.owner_reached onWay
    have stored := Arena.node_eq_ok_iff.mp good.1
    exact List.mem_range.mpr (Array.getElem?_eq_some_iff.mp stored).choose
  have indices : ((way.map Prod.fst).map NodeId.index).Nodup :=
    distinct.map fun x y same => by
      cases x
      cases y
      simp_all
  simpa using (List.subperm_of_subset indices inside).length_le

/-- Where no way comes back to an owner, following the slots comes to an end. -/
theorem exists_unfolds (cut : Finset Tag)
    (distinct : ∀ {way h}, Way a root way h → (way.map Prod.fst).Nodup) (fuel : Nat)
    (goes : Way a root way h) (enough : a.size < way.length + fuel) : ∃ f, Unfolds a cut [h] f := by
  -- The owners on a way are distinct, so no way is longer than the arena.
  induction fuel generalizing way h with
  | zero =>
    have bound := goes.length_le (distinct goes)
    omega
  | succ fuel ih =>
    by_cases good : ∃ n, a.Shows h n
    · obtain ⟨n, good⟩ := good
      by_cases tag : n.tag ∈ cut
      · exact ⟨_, .cut good tag .nil⟩
      · have below : ∀ c ∈ n.children, ∃ f, Unfolds a cut [c] f := by
          intro c child
          obtain ⟨j, child⟩ := List.getElem?_of_mem child
          exact ih (goes.step good child) (by rw [List.length_cons]; omega)
        obtain ⟨kids, unfolds⟩ := Unfolds.exists_of_forall below
        exact ⟨_, .node good tag unfolds .nil⟩
    · exact ⟨_, .stub (not_exists.mp good) .nil⟩

end Way

/-- All nodes of the forest are distinct, and reached through the slots of `owner` from number `j` on,
where `owner` is reached on the given way. -/
structure Forest.Under (f : Forest) (a : Arena) (root : Handle) (owner : NodeId) (j : Nat)
    (way : List (NodeId × Nat)) : Prop where
  goes : ∀ p ∈ f.nodes, ∃ i before, Way a root (before ++ (owner, j + i) :: way) p.1 ∧ a.Shows p.1 p.2
  nodup : f.ids.Nodup

theorem Forest.under_nil {a : Arena} {root : Handle} {owner : NodeId} {j : Nat}
    {way : List (NodeId × Nat)} : Forest.nil.Under a root owner j way where
  goes := by simp [nodes]
  nodup := List.nodup_nil

namespace SingleOwner

variable {a : Arena} {root h h' : Handle} {n : Node} {way way' : List (NodeId × Nat)}
  (single : SingleOwner a root)

include single

/-- There is only one way to a node. -/
theorem way_unique (goes : Way a root way h) (goes' : Way a root way' h') (same : h.node = h'.node)
    (stored : a.node h.node = .ok n) : way = way' := by
  induction goes generalizing way' h' n with
  | start =>
    cases goes' with
    | start => rfl
    | step before good child => exact absurd same.symm (single.root_unheld (before.holds good child))
  | step before good child ih =>
    have held := before.holds good child
    cases goes' with
    | start => exact absurd same (single.root_unheld held)
    | step before' good' child' =>
      have slot := single.one_slot held (before'.holds good' child') same stored
      rw [slot, ih before' (congrArg Prod.fst slot) good.1]

theorem nodup_owners (goes : Way a root way h) : (way.map Prod.fst).Nodup := by
  induction goes with
  | start => exact List.nodup_nil
  | @step way owner _ n _ before good _ ih =>
    rw [List.map_cons, List.nodup_cons]
    refine ⟨fun mem => ?_, ih⟩
    obtain ⟨earlier, owner', _, shorter, goes', same, _⟩ := before.owner_reached mem
    rw [single.way_unique before goes' same.symm good.1] at shorter
    exact Nat.lt_irrefl _ shorter

theorem exists_unfolds (cut : Finset Tag) : ∃ f, Unfolds a cut [root] f :=
  Way.exists_unfolds cut single.nodup_owners (a.size + 1) .start (by omega)

theorem slot_unique {owner : NodeId} {j j' : Nat} {before before' : List (NodeId × Nat)}
    (goes : Way a root (before ++ (owner, j) :: way) h)
    (goes' : Way a root (before' ++ (owner, j') :: way) h') (same : h.node = h'.node)
    (stored : a.node h.node = .ok n) : j = j' := by
  have ends := List.append_inj_right' (single.way_unique goes goes' same stored) rfl
  simpa using ends

theorem under_node {kids rest : Forest} {owner : NodeId} {j : Nat}
    (first : Way a root ((owner, j) :: way) h) (good : a.Shows h n)
    (below : kids.Under a root h.node 0 ((owner, j) :: way))
    (right : rest.Under a root owner (j + 1) way) :
    (Forest.node h n kids rest).Under a root owner j way where
  goes := by
    simp only [Forest.nodes, List.mem_cons, List.mem_append]
    rintro p (rfl | mem | mem)
    · exact ⟨0, [], first, good⟩
    · obtain ⟨i, before, goes, good⟩ := below.goes p mem
      exact ⟨0, before ++ [(h.node, 0 + i)], by simpa using goes, good⟩
    · obtain ⟨i, before, goes, good⟩ := right.goes p mem
      exact ⟨1 + i, before, by simpa [Nat.add_assoc] using goes, good⟩
  nodup := by
    rw [Forest.ids, Forest.nodes, List.map_cons, List.map_append, List.nodup_cons]
    refine ⟨fun mem => ?_, List.nodup_append.mpr ⟨below.nodup, right.nodup, ?_⟩⟩
    -- What is below has a longer way, and what is to the right goes through another slot.
    · rcases List.mem_append.mp mem with mem | mem
      · obtain ⟨p, mem, same⟩ := List.mem_map.mp mem
        obtain ⟨i, before, goes, -⟩ := below.goes p mem
        have lengths := congrArg List.length (single.way_unique first goes same.symm good.1)
        simp only [List.length_append, List.length_cons] at lengths
        omega
      · obtain ⟨p, mem, same⟩ := List.mem_map.mp mem
        obtain ⟨i, before, goes, -⟩ := right.goes p mem
        have direct : Way a root ([] ++ (owner, j) :: way) h := first
        have slots := single.slot_unique direct goes same.symm good.1
        omega
    · intro id mem id' mem' same
      obtain ⟨p, left, rfl⟩ := List.mem_map.mp mem
      obtain ⟨q, there, rfl⟩ := List.mem_map.mp mem'
      obtain ⟨i, before, goes, good⟩ := below.goes p left
      obtain ⟨i', before', goes', -⟩ := right.goes q there
      have through : Way a root ((before ++ [(h.node, 0 + i)]) ++ (owner, j) :: way) p.1 := by
        simpa using goes
      have slots := single.slot_unique through goes' same good.1
      omega

omit single in
theorem tail_ways {hs : List Handle} {owner : NodeId} {j : Nat}
    (ways : ∀ i c, (h :: hs)[i]? = some c → Way a root ((owner, j + i) :: way) c) (i : Nat) (c : Handle)
    (there : hs[i]? = some c) : Way a root ((owner, j + 1 + i) :: way) c := by
  have goes := ways (i + 1) c there
  rwa [Nat.add_comm i 1, ← Nat.add_assoc] at goes

/-- The nodes below successive slots of one owner are reached through these slots. -/
theorem under_of_unfolds {cut : Finset Tag} {hs : List Handle} {f : Forest} {owner : NodeId} {j : Nat}
    (unfolds : Unfolds a cut hs f)
    (ways : ∀ i c, hs[i]? = some c → Way a root ((owner, j + i) :: way) c) :
    f.Under a root owner j way := by
  induction unfolds generalizing owner j way with
  | nil => exact Forest.under_nil
  | stub _ _ ih =>
    have right := ih (tail_ways ways)
    refine ⟨fun p mem => ?_, right.nodup⟩
    obtain ⟨i, before, goes, good⟩ := right.goes p mem
    exact ⟨1 + i, before, by simpa [Nat.add_assoc] using goes, good⟩
  | cut good _ _ ih => exact single.under_node (ways 0 _ rfl) good Forest.under_nil (ih (tail_ways ways))
  | node good _ _ _ ihKids ihRest =>
    have first := ways 0 _ rfl
    refine single.under_node first good (ihKids fun i c child => ?_) (ihRest (tail_ways ways))
    rw [Nat.zero_add]
    exact first.step good child

/-- No node occurs twice. -/
theorem nodup_ids {cut : Finset Tag} {f : Forest} (unfolds : Unfolds a cut [root] f) : f.ids.Nodup := by
  cases unfolds with
  | stub _ rest =>
    cases rest
    exact List.nodup_nil
  | cut _ _ rest =>
    cases rest
    exact List.nodup_singleton _
  | @node _ n _ kids _ good _ unfolds rest =>
    cases rest
    have below : kids.Under a root root.node 0 [] := by
      apply single.under_of_unfolds unfolds
      intro i c child
      rw [Nat.zero_add]
      exact .step .start good child
    have ids : (Forest.node root n kids .nil).ids = root.node :: kids.ids := by
      simp [Forest.ids, Forest.nodes]
    rw [ids, List.nodup_cons]
    refine ⟨fun mem => ?_, below.nodup⟩
    obtain ⟨p, mem, same⟩ := List.mem_map.mp mem
    obtain ⟨i, before, goes, -⟩ := below.goes p mem
    have ways := single.way_unique .start goes same.symm good.1
    simp at ways

end SingleOwner

/-- The child slots of the forest, with their occupants. -/
def Forest.slots (f : Forest) : List ((NodeId × Nat) × Handle) :=
  f.nodes.flatMap fun p => p.2.children.zipIdx.map fun c => ((p.1.node, c.2), c.1)

theorem Unfolds.mem_slots {a : Arena} {root c : Handle} {f : Forest} {slot : NodeId × Nat}
    (unfolds : Unfolds a ∅ [root] f) (holds : Holds a root slot c) : (slot, c) ∈ f.slots := by
  obtain ⟨h, n, reaches, good, owner, child⟩ := holds
  refine List.mem_flatMap.mpr ⟨(h, n), unfolds.mem_nodes (unfolds.mem_preorder_of_reaches reaches) good, ?_⟩
  exact List.mem_map.mpr ⟨(c, slot.2), List.mem_zipIdx_iff_getElem?.mpr child, by simp [owner]⟩

/-- Single ownership can be read off the unfolding. -/
theorem SingleOwner.of_slots {a : Arena} {root : Handle} {f : Forest} (unfolds : Unfolds a ∅ [root] f)
    (distinct : (root.node :: f.slots.map fun s => s.2.node).Nodup) : SingleOwner a root where
  root_unheld holds same :=
    (List.nodup_cons.mp distinct).1 (same ▸ List.mem_map_of_mem (unfolds.mem_slots holds))
  one_slot holds holds' same _ :=
    congrArg Prod.fst (List.inj_on_of_nodup_map (List.nodup_cons.mp distinct).2
      (unfolds.mem_slots holds) (unfolds.mem_slots holds') same)

end ProgramTree
