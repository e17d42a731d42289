import Mathlib.Data.Set.Card
import ProgramTree.Proofs.Ownership
import ProgramTree.Proofs.Paths
import ProgramTree.Proofs.Placing
import ProgramTree.Proofs.Replacement

/-!
Passes that resolve handles. There is a function `g` that says what each handle comes to in the end, and
the pass answers with it as soon as the children of the node have been replaced. Nodes may be shared, as
long as none lies on a cycle. The first visit of a node replaces its children by what they come to, and
any later visit finds nothing left to do (`Transformer.Resolves.enter_ends`). So all slots below the root
whose occupant comes to something else are overwritten once each (`Transformer.Resolves.reports`).
-/

namespace ProgramTree

variable {a b : Arena} {h h' c : Handle} {n m : Node} {g : Handle → NodeId}

theorem Reaches.trans (first : Reaches a h h') (second : Reaches a h' c) : Reaches a h c := by
  induction second with
  | root => exact first
  | child _ shown child ih => exact ih.child shown child

theorem Reaches.of_child (shown : a.Shows h n) (child : c ∈ n.children) (below : Reaches a c h') :
    Reaches a h h' :=
  (Reaches.root.child shown child).trans below

theorem Reaches.cases_start (reaches : Reaches a h h') :
    h' = h ∨ ∃ n c, a.Shows h n ∧ c ∈ n.children ∧ Reaches a c h' := by
  induction reaches with
  | root => exact .inl rfl
  | child _ shown child ih =>
    rcases ih with rfl | ⟨n, c, shown', child', below⟩
    · exact .inr ⟨_, _, shown, child, .root⟩
    · exact .inr ⟨n, c, shown', child', below.child shown child⟩

theorem Arena.Shows.handle_eq (shown : a.Shows h n) (shown' : a.Shows h' m)
    (same : h.node = h'.node) : h = h' := by
  obtain ⟨category, id⟩ := h
  obtain ⟨category', id'⟩ := h'
  cases same
  cases Except.ok.inj (shown.1.symm.trans shown'.1)
  cases (show category = category' from shown.2.symm.trans shown'.2)
  rfl

/-- Below the handle there is a finite tree of good handles. -/
inductive Founded (a : Arena) : Handle → Prop where
  | node {h : Handle} {n : Node} :
      a.Shows h n → (∀ c ∈ n.children, Founded a c) → Founded a h

namespace Founded

theorem shows (founded : Founded a h) : ∃ n, a.Shows h n := by
  cases founded with
  | node shown _ => exact ⟨_, shown⟩

theorem child (founded : Founded a h) (shown : a.Shows h n) (child : c ∈ n.children) :
    Founded a c := by
  cases founded with
  | node shown' children => exact children c (shown'.unique shown ▸ child)

theorem of_reaches (founded : Founded a h) (reaches : Reaches a h h') : Founded a h' := by
  induction reaches with
  | root => exact founded
  | child _ shown child ih => exact ih.child shown child

theorem not_below (founded : Founded a h) (shown : a.Shows h n) (child : c ∈ n.children)
    (below : Reaches a c h') : h'.node ≠ h.node := by
  induction founded generalizing n c h' with
  | @node h n' shown' children ih =>
    intro same
    cases shown'.unique shown
    obtain ⟨_, good⟩ := ((children c child).of_reaches below).shows
    obtain rfl := good.handle_eq shown same
    -- The way from the child to the node goes on to the child again, which is excluded for the child.
    rcases below.cases_start with rfl | ⟨n₁, c₁, shown₁, child₁, below₁⟩
    · exact ih _ child shown child .root rfl
    · exact ih c child shown₁ child₁ (below₁.child shown child) rfl

theorem of_unfolds {hs : List Handle} {f : Forest} (unfolds : Unfolds a ∅ hs f)
    (none : f.stubs = []) : ∀ h ∈ hs, Founded a h := by
  induction unfolds with
  | nil => exact fun _ mem => absurd mem List.not_mem_nil
  | stub _ _ _ => cases none
  | cut _ tag _ _ => exact absurd tag (Finset.notMem_empty _)
  | node shown _ _ _ ihKids ihRest =>
    obtain ⟨noKids, noRest⟩ := List.append_eq_nil_iff.mp none
    exact List.forall_mem_cons.mpr ⟨.node shown (ihKids noKids), ihRest noRest⟩

theorem of_acyclic {root : Handle} (acyclic : Acyclic a root)
    (good : ∀ h, Reaches a root h → a.Good h) : Founded a root := by
  obtain ⟨f, unfolds⟩ := acyclic.exists_unfolds ∅
  exact of_unfolds unfolds (unfolds.stubs_eq_nil good) root List.mem_cons_self

end Founded

namespace Arena

/-- The slots whose occupant comes to another node. -/
def loose (g : Handle → NodeId) (a : Arena) : Set (NodeId × Nat) :=
  {slot | ∃ c, a.Held slot c ∧ g c ≠ c.node}

theorem finite_loose (g : Handle → NodeId) (a : Arena) : (a.loose g).Finite := by
  refine (List.finite_toSet (a.slots.map Prod.fst)).subset ?_
  rintro slot ⟨c, held, -⟩
  exact List.mem_map.mpr ⟨_, held.mem_slots, rfl⟩

variable {owner id new : NodeId} {k i : Nat} {lane : Lane}

/-- When the occupant of a slot is overwritten by what it comes to, there is one loose slot less. -/
theorem ncard_loose_of_fill (stored : a.node owner = .ok n)
    (filled : b.node owner = .ok (n.fill k i new)) (others : ∀ id, id ≠ owner → b.node id = a.node id)
    (here : n.tag.lanes[k]? = some lane) (there : n.place? k i = some (some id))
    (comes : g ⟨lane.category, id⟩ ≠ id) (fixed : g ⟨lane.category, new⟩ = new) :
    (b.loose g).ncard + 1 = (a.loose g).ncard := by
  have occupant := Node.getElem?_children here there
  have children := Node.children_fill here there new
  have less : b.loose g = a.loose g \ {(owner, (n.behind k i).length)} := by
    ext ⟨id', j⟩
    constructor
    · rintro ⟨c, ⟨n', found, child⟩, other⟩
      by_cases same : id' = owner
      · subst same
        cases Except.ok.inj (filled.symm.trans found)
        rw [children, List.getElem?_set] at child
        by_cases position : (n.behind k i).length = j
        · rw [if_pos position, if_pos (List.getElem?_eq_some_iff.mp occupant).choose] at child
          cases child
          exact absurd fixed other
        · rw [if_neg position] at child
          exact ⟨⟨c, ⟨n, stored, child⟩, other⟩, fun only => position (Prod.ext_iff.mp only).2.symm⟩
      · exact ⟨⟨c, ⟨n', (others id' same).symm.trans found, child⟩, other⟩,
          fun only => same (Prod.ext_iff.mp only).1⟩
    · rintro ⟨⟨c, ⟨n', found, child⟩, other⟩, apart⟩
      by_cases same : id' = owner
      · subst same
        cases Except.ok.inj (stored.symm.trans found)
        refine ⟨c, ⟨_, filled, ?_⟩, other⟩
        rw [children, List.getElem?_set_ne fun position => apart (by rw [position]; rfl)]
        exact child
      · exact ⟨c, ⟨n', (others id' same).trans found, child⟩, other⟩
  rw [less]
  exact Set.ncard_sdiff_singleton_add_one ⟨_, ⟨n, stored, occupant⟩, comes⟩ (a.finite_loose g)

end Arena

/-- What `g` says of the handles of an arena is final, and leads to the node itself, to one without
children, or to what one of the children comes to. -/
structure Resolution (a : Arena) (g : Handle → NodeId) : Prop where
  fixed : ∀ {h}, Founded a h → g ⟨h.category, g h⟩ = g h
  leads : ∀ {h n}, Founded a h → a.Shows h n →
    g h = h.node ∨ (∃ m, a.Shows ⟨h.category, g h⟩ m ∧ m.children = []) ∨
      ∃ c ∈ n.children, c.category = h.category ∧ g h = g c

/-- In `b`, the nodes below `h` have their children replaced. -/
def Done (a : Arena) (g : Handle → NodeId) (b : Arena) (h : Handle) : Prop :=
  ∀ h' n, Reaches a h h' → a.Shows h' n → b.node h'.node = .ok (n.mapChildren g)

/-- In `b`, the nodes below `h` are as in `a`, unless all below them is done. -/
def Begun (a : Arena) (g : Handle → NodeId) (b : Arena) (h : Handle) : Prop :=
  ∀ h' n, Reaches a h h' → a.Shows h' n → b.node h'.node = .ok n ∨ Done a g b h'

theorem Done.of_reaches (done : Done a g b h) (reaches : Reaches a h h') : Done a g b h' :=
  fun h'' n below => done h'' n (reaches.trans below)

theorem Begun.of_reaches (begun : Begun a g b h) (reaches : Reaches a h h') : Begun a g b h' :=
  fun h'' n below => begun h'' n (reaches.trans below)

theorem Begun.refl (a : Arena) (g : Handle → NodeId) (h : Handle) : Begun a g a h :=
  fun _ _ _ shown => .inl shown.1

/-- Nothing is left to do for a handle in `b`: its node has its children replaced, and nothing is left
to do for what they came to. -/
inductive Rests (a : Arena) (g : Handle → NodeId) (b : Arena) : Handle → Prop where
  | node {h : Handle} {n : Node} :
      Founded a h → a.Shows h n → b.node h.node = .ok (n.mapChildren g) →
      (∀ c ∈ n.children, Rests a g b ⟨c.category, g c⟩) → Rests a g b h

theorem Resolution.rests (resolution : Resolution a g) (founded : Founded a h) (stays : a.Stays b)
    (done : Done a g b h) : Rests a g b h ∧ Rests a g b ⟨h.category, g h⟩ := by
  induction founded with
  | @node h n shown children ih =>
    have below : ∀ c ∈ n.children, Rests a g b ⟨c.category, g c⟩ := fun c child =>
      (ih c child (done.of_reaches (.of_child shown child .root))).2
    have here : Rests a g b h := .node (.node shown children) shown (done h n .root shown) below
    refine ⟨here, ?_⟩
    rcases resolution.leads (.node shown children) shown with
      keeps | ⟨m, leaf, none⟩ | ⟨c, child, category, same⟩
    · rwa [keeps]
    · obtain ⟨m', stored, alike⟩ := stays.grows.node leaf.1
      obtain rfl := alike.eq_of_childless none
      have nothing : ∀ c ∈ m'.children, False := by simp [none]
      refine .node (.node leaf fun c mem => (nothing c mem).elim) leaf ?_ fun c mem =>
        (nothing c mem).elim
      rwa [Node.mapChildren_id fun c mem => (nothing c mem).elim]
    · rw [same, ← category]
      exact below c child

theorem Rests.founded (rests : Rests a g b h) : Founded b h := by
  induction rests with
  | @node h n _ shown stored _ ih =>
    refine .node ⟨stored, shown.2⟩ fun c mem => ?_
    rw [Node.children_mapChildren] at mem
    obtain ⟨c₀, child, rfl⟩ := List.mem_map.mp mem
    exact ih c₀ child

variable {σ : Type}

/-- The pass answers with what `g` says, once the children of the node are replaced. -/
structure Transformer.Resolves (r : Transformer σ) (a : Arena) (g : Handle → NodeId) : Prop
    extends Resolution a g where
  enter : ∀ {h n m past w} {good : World (Tally σ) → Prop}, Founded a h → a.Shows h n →
    w.arena.Shows h m → m.tag = n.tag →
    (∀ past, Ends r.body past (r.body (.inl (.walk n.tag h.node)) w)
      (fun _ _ w' => w'.arena.node h.node = .ok (n.mapChildren g) ∧ good w') fun _ _ _ => False) →
    Ends r.body past (Script.perform (Sum.inl (Call.enter h)) w)
      (fun _ new w' => new = g h ∧ good w') fun _ _ _ => False

/-- What entering `h` does: the nodes below it are done, slots are overwritten by what their occupants
come to, and each of them is counted. -/
structure Advances (a : Arena) (g : Handle → NodeId) (h : Handle) (w w' : World (Tally σ)) : Prop where
  stays : w.arena.Stays w'.arena
  forth : ∀ id m, w.arena.node id = .ok m → w'.arena.node id = .ok m ∨
    ∃ h', Reaches a h h' ∧ h'.node = id ∧ a.Shows h' m ∧ w'.arena.node id = .ok (m.mapChildren g)
  done : Done a g w'.arena h
  count : w'.state.replaced + UInt64.ofNat (w'.arena.loose g).ncard =
    w.state.replaced + UInt64.ofNat (w.arena.loose g).ncard

namespace Advances

variable {w w' : World (Tally σ)}

theorem refl (done : Done a g w.arena h) : Advances a g h w w :=
  ⟨.refl _, fun _ _ stored => .inl stored, done, rfl⟩

theorem mapped (advances : Advances a g c w w') (shown : a.Shows h n)
    (stored : w.arena.node h.node = .ok (n.mapChildren g)) :
    w'.arena.node h.node = .ok (n.mapChildren g) := by
  rcases advances.forth _ _ stored with same | ⟨h', -, node, shown', mapped⟩
  · exact same
  · -- The node was as in `a`, so it has no child that comes to anything else.
    have found : a.node h.node = .ok (n.mapChildren g) := by
      rw [← node]
      exact shown'.1
    have still : n.mapChildren g = n := Except.ok.inj (found.symm.trans shown.1)
    rw [still, still] at mapped
    rwa [still]

theorem done_of_done (advances : Advances a g c w w') (done : Done a g w.arena h) :
    Done a g w'.arena h :=
  fun h' n below shown => advances.mapped shown (done h' n below shown)

theorem begun_of_begun (advances : Advances a g c w w') (begun : Begun a g w.arena h) :
    Begun a g w'.arena h := by
  intro h' n below shown
  rcases begun h' n below shown with stored | done
  · rcases advances.forth _ _ stored with same | ⟨h'', reached, node, shown', -⟩
    · exact .inl same
    · obtain rfl := shown'.handle_eq shown node
      exact .inr (advances.done.of_reaches reached)
  · exact .inr (advances.done_of_done done)

end Advances

/-- In the walk over the node `n` of `h`, which began in the world `w₀` and stands before position `i` of
lane `k`: what is known when `x` places of the lane were overwritten and have not been counted. -/
structure Underway (a : Arena) (g : Handle → NodeId) (h : Handle) (n : Node) (w₀ : World (Tally σ))
    (k i x : Nat) (w : World (Tally σ)) : Prop where
  owner : ∃ m, w.arena.node h.node = .ok m ∧ n.Partly g k i m
  stays : w₀.arena.Stays w.arena
  forth : ∀ id m, id ≠ h.node → w₀.arena.node id = .ok m → w.arena.node id = .ok m ∨
    ∃ c ∈ n.children, ∃ h', Reaches a c h' ∧ h'.node = id ∧ a.Shows h' m ∧
      w.arena.node id = .ok (m.mapChildren g)
  begun : ∀ c ∈ n.children, Begun a g w.arena c
  done : ∀ c ∈ n.behind k i, Done a g w.arena c
  count : w.state.replaced + UInt64.ofNat x + UInt64.ofNat (w.arena.loose g).ncard =
    w₀.state.replaced + UInt64.ofNat (w₀.arena.loose g).ncard

namespace Underway

variable {w₀ w w' : World (Tally σ)} {k i x : Nat} {lane : Lane} {id : NodeId}

theorem start (stored : w₀.arena.node h.node = .ok n) (begun : ∀ c ∈ n.children, Begun a g w₀.arena c) :
    Underway a g h n w₀ 0 0 0 w₀ where
  owner := ⟨n, stored, .start g n⟩
  stays := .refl _
  forth _ _ _ stored := .inl stored
  begun := begun
  done c mem := absurd mem (by simp [Node.behind, Node.settled, Node.passed_zero])
  count := congrArg (· + _) (UInt64.add_zero _)

theorem skip (underway : Underway a g h n w₀ k i x w) (empty : n.place? k i = some none) :
    Underway a g h n w₀ k (i + 1) x w := by
  obtain ⟨m, stored, partly⟩ := underway.owner
  refine { underway with owner := ⟨m, stored, partly.skip empty⟩, done := ?_ }
  rw [Node.behind, Node.passed_none empty]
  exact underway.done

theorem next (underway : Underway a g h n w₀ k i x w) (here : n.tag.lanes[k]? = some lane)
    (beyond : n.place? k i = none) : Underway a g h n w₀ (k + 1) 0 0 (w.bump x) := by
  obtain ⟨m, stored, partly⟩ := underway.owner
  refine ⟨⟨m, stored, partly.next here beyond⟩, underway.stays, underway.forth, underway.begun, ?_, ?_⟩
  · rw [Node.behind, Node.passed_zero, List.append_nil, Node.settled_succ here beyond]
    exact underway.done
  · exact (congrArg (· + _) (UInt64.add_zero _)).trans underway.count

theorem entered (underway : Underway a g h n w₀ k i x w) (founded : Founded a h)
    (shown : a.Shows h n) (child : c ∈ n.children) (advances : Advances a g c w w') :
    Underway a g h n w₀ k i x w' where
  owner := by
    obtain ⟨m, stored, partly⟩ := underway.owner
    rcases advances.forth _ _ stored with same | ⟨h', reached, node, -, -⟩
    · exact ⟨m, same, partly⟩
    · exact absurd node (founded.not_below shown child reached)
  stays := underway.stays.trans advances.stays
  forth id m other stored := by
    rcases underway.forth id m other stored with same | ⟨c', child', h', reached, node, shown', mapped⟩
    · rcases advances.forth id m same with same | ⟨h', reached, node, shown', mapped⟩
      · exact .inl same
      · exact .inr ⟨c, child, h', reached, node, shown', mapped⟩
    · subst node
      exact .inr ⟨c', child', h', reached, rfl, shown', advances.mapped shown' mapped⟩
  begun c' child' := advances.begun_of_begun (underway.begun c' child')
  done c' mem := advances.done_of_done (underway.done c' mem)
  count := by
    calc w'.state.replaced + UInt64.ofNat x + UInt64.ofNat (w'.arena.loose g).ncard
        = w'.state.replaced + UInt64.ofNat (w'.arena.loose g).ncard + UInt64.ofNat x := by ac_rfl
      _ = w.state.replaced + UInt64.ofNat (w.arena.loose g).ncard + UInt64.ofNat x := by
          rw [advances.count]
      _ = w.state.replaced + UInt64.ofNat x + UInt64.ofNat (w.arena.loose g).ncard := by ac_rfl
      _ = w₀.state.replaced + UInt64.ofNat (w₀.arena.loose g).ncard := underway.count

theorem keep (underway : Underway a g h n w₀ k i x w) (here : n.tag.lanes[k]? = some lane)
    (there : n.place? k i = some (some id)) (done : Done a g w.arena ⟨lane.category, id⟩)
    (same : g ⟨lane.category, id⟩ = id) : Underway a g h n w₀ k (i + 1) x w := by
  obtain ⟨m, stored, partly⟩ := underway.owner
  have mapped : (n.mapChildren g).place? k i = n.place? k i := by
    rw [Node.place?_mapChildren g here, there, Option.map_some, Option.map_some, same]
  refine { underway with owner := ⟨m, stored, partly.keep mapped⟩, done := ?_ }
  rw [Node.behind, Node.passed_some here there, ← List.append_assoc]
  exact List.forall_mem_append.mpr ⟨underway.done, List.forall_mem_singleton.mpr done⟩

theorem store (underway : Underway a g h n w₀ k i x w) (founded : Founded a h) (shown : a.Shows h n)
    (here : n.tag.lanes[k]? = some lane) (there : n.place? k i = some (some id))
    (done : Done a g w.arena ⟨lane.category, id⟩) (comes : g ⟨lane.category, id⟩ ≠ id)
    (fixed : g ⟨lane.category, g ⟨lane.category, id⟩⟩ = g ⟨lane.category, id⟩) :
    ∃ w', World.fill n.tag h.node k i (g ⟨lane.category, id⟩) w = (.ok true, w') ∧
      Underway a g h n w₀ k (i + 1) (x + 1) w' := by
  obtain ⟨m, stored, partly⟩ := underway.owner
  have tag := partly.alike.tag
  have place : m.place? k i = some (some id) := partly.here.trans there
  refine ⟨{ w with arena := w.arena.put m.tag h.node (m.fill k i (g ⟨lane.category, id⟩)).record },
    by rw [← tag]; exact World.fill_of_node stored place _, ?_⟩
  have others : ∀ id', id' ≠ h.node →
      (w.arena.put m.tag h.node (m.fill k i (g ⟨lane.category, id⟩)).record).node id' =
        w.arena.node id' := fun id' other => Arena.node_put_ne (Ne.symm other)
  have owned : (w.arena.put m.tag h.node (m.fill k i (g ⟨lane.category, id⟩)).record).node h.node =
      .ok (m.fill k i (g ⟨lane.category, id⟩)) := Arena.node_put_self stored
  have child : ⟨lane.category, id⟩ ∈ n.children := Node.mem_children here there
  have apart : ∀ c ∈ n.children, ∀ h', Reaches a c h' → h'.node ≠ h.node := fun c child h' below =>
    founded.not_below shown child below
  have kept : ∀ c ∈ n.children, Done a g w.arena c → Done a g _ c := fun c child done h' n' below good =>
    (others _ (apart c child h' below)).trans (done h' n' below good)
  have less := Arena.ncard_loose_of_fill stored owned others (by rwa [tag]) place comes fixed
  refine ⟨⟨_, owned, partly.fill here there⟩,
    underway.stays.trans (.put stored (Node.alike_fill place _)), ?_, ?_, ?_, ?_⟩
  · intro id' m' other before
    rw [others id' other]
    exact underway.forth id' m' other before
  · intro c child h' n' below good
    rw [others _ (apart c child h' below)]
    refine (underway.begun c child h' n' below good).imp_right fun done h'' n'' below' good' => ?_
    rw [others _ (apart c child h'' (below.trans below'))]
    exact done h'' n'' below' good'
  · rw [Node.behind, Node.passed_some here there, ← List.append_assoc]
    refine List.forall_mem_append.mpr ⟨fun c mem => kept c ?_ (underway.done c mem),
      List.forall_mem_singleton.mpr (kept _ child done)⟩
    rw [n.children_eq k i]
    exact List.mem_append_left _ mem
  · rw [← underway.count, ← less, UInt64.ofNat_add, UInt64.ofNat_add]
    ac_rfl

theorem advances (underway : Underway a g h n w₀ n.tag.lanes.length 0 0 w) (shown : a.Shows h n)
    (before : w₀.arena.node h.node = .ok n) :
    w.arena.node h.node = .ok (n.mapChildren g) ∧ Advances a g h w₀ w := by
  obtain ⟨m, stored, partly⟩ := underway.owner
  obtain rfl := partly.eq_mapChildren
  have all := underway.done
  rw [Node.behind, Node.passed_zero, List.append_nil, Node.settled_all] at all
  refine ⟨stored, underway.stays, fun id m there => ?_, fun h' n' reached good => ?_, ?_⟩
  · by_cases same : id = h.node
    · subst same
      cases before.symm.trans there
      exact .inr ⟨h, .root, rfl, shown, stored⟩
    · refine (underway.forth id m same there).imp_right ?_
      rintro ⟨c, child, h', below, rest⟩
      exact ⟨h', .of_child shown child below, rest⟩
  · rcases reached.cases_start with rfl | ⟨n₁, c, shown', child, below⟩
    · rwa [good.unique shown]
    · exact all c (shown'.unique shown ▸ child) h' n' below good
  · exact (congrArg (· + _) (UInt64.add_zero _)).symm.trans underway.count

end Underway

namespace Transformer.Resolves

variable {r : Transformer σ} (resolves : r.Resolves a g)

include resolves

theorem rest_ends {w : World (Tally σ)} (rests : Rests a g w.arena h) (past : List (Moment Reply)) :
    Ends r.body past (Script.perform (Sum.inl (Call.enter h)) w)
      (fun _ new w' => new = g h ∧ w' = w) fun _ _ _ => False := by
  generalize same : w.arena = b at rests
  induction rests generalizing past with
  | @node h n founded shown stored _ ih =>
    rw [← same] at stored
    refine resolves.enter founded shown (m := n.mapChildren g) ⟨stored, shown.2⟩ rfl fun past => ?_
    have rule : r.Walkable h.node (n.mapChildren g) (fun _ _ x _ w' => w' = w ∧ x = 0)
        fun _ _ _ => False := {
      reads := by
        rintro k i x past w' ⟨rfl, rfl⟩
        exact World.place?_of_node stored k i
      enter := by
        rintro k i x past w' lane id here there ⟨rfl, rfl⟩
        rw [n.place?_mapChildren g here] at there
        obtain ⟨place, found, some⟩ := Option.map_eq_some_iff.mp there
        obtain ⟨id₀, rfl, rfl⟩ := Option.map_eq_some_iff.mp some
        have child : ⟨lane.category, id₀⟩ ∈ n.children := Node.mem_children here found
        refine (ih _ child past).mono (fun past new w' ends => ?_) fun _ _ _ no => no
        rw [if_pos (ends.1.trans (resolves.fixed (founded.child shown child)))]
        exact ⟨ends.2, rfl⟩
      skip := fun _ holds => holds
      next := by
        rintro k i x past w' lane - - ⟨rfl, rfl⟩
        exact ⟨World.bump_zero _, rfl⟩ }
    refine (rule.walk_ends ⟨rfl, rfl⟩).mono (fun _ _ w' holds => ?_) fun _ _ _ no => no
    exact ⟨holds.1 ▸ stored, holds.1⟩

/-- A handle is entered, whatever has been done before: it is answered with what it comes to, and all
below it is done. -/
theorem enter_ends (founded : Founded a h) (past : List (Moment Reply)) (w : World (Tally σ))
    (stays : a.Stays w.arena) (begun : Begun a g w.arena h) :
    Ends r.body past (Script.perform (Sum.inl (Call.enter h)) w)
      (fun _ new w' => new = g h ∧ Advances a g h w w') fun _ _ _ => False := by
  induction founded generalizing past w with
  | @node h n shown children ih =>
    have founded : Founded a h := .node shown children
    rcases begun h n .root shown with stored | done
    · refine resolves.enter founded shown ⟨stored, shown.2⟩ rfl fun past => ?_
      have rule : r.Walkable h.node n (fun k i x _ w' => Underway a g h n w k i x w')
          fun _ _ _ => False := {
        reads := by
          intro k i x past w' underway
          obtain ⟨m, stored', partly⟩ := underway.owner
          rw [← partly.alike.tag, World.place?_of_node stored', partly.here]
        enter := by
          intro k i x past w' lane id here there underway
          have child : ⟨lane.category, id⟩ ∈ n.children := Node.mem_children here there
          refine (ih _ child past w' (stays.trans underway.stays) (underway.begun _ child)).mono
            (fun past new w'' ends => ?_) fun _ _ _ no => no
          obtain ⟨rfl, advances⟩ := ends
          have later := underway.entered founded shown child advances
          by_cases same : g ⟨lane.category, id⟩ = id
          · rw [if_pos same]
            exact later.keep here there advances.done same
          · rw [if_neg same]
            exact later.store founded shown here there advances.done same
              (resolves.fixed (children _ child))
        skip := fun empty underway => underway.skip empty
        next := fun here beyond underway => underway.next here beyond }
      have below : ∀ c ∈ n.children, Begun a g w.arena c := fun c child =>
        begun.of_reaches (.of_child shown child .root)
      exact (rule.walk_ends (.start stored below)).mono
        (fun _ _ w' underway => underway.advances shown stored) fun _ _ _ no => no
    · have rests := (resolves.toResolution.rests founded stays done).1
      refine (resolves.rest_ends rests past).mono (fun _ new w' ends => ?_) fun _ _ _ no => no
      rw [ends.2]
      exact ⟨ends.1, .refl done⟩

end Transformer.Resolves

/-- What an arena becomes when all below `root` is resolved: the nodes there have their children
replaced, and the others are as they were. -/
structure Arena.Becomes (a : Arena) (g : Handle → NodeId) (root : Handle) (b : Arena) : Prop where
  stays : a.Stays b
  reached : Done a g b root
  others : ∀ id n, (∀ h, Reaches a root h → h.node ≠ id) → a.node id = .ok n → b.node id = .ok n

/-- The slots below `root` whose occupant comes to another node. -/
def Arena.looseFrom (a : Arena) (g : Handle → NodeId) (root : Handle) : Set (NodeId × Nat) :=
  {slot | ∃ c, Holds a root slot c ∧ g c ≠ c.node}

section Becomes

variable {root : Handle}

theorem Advances.becomes {w w' : World (Tally σ)} (advances : Advances a g root w w')
    (same : w.arena = a) : a.Becomes g root w'.arena := by
  subst same
  refine ⟨advances.stays, advances.done, fun id n apart stored => ?_⟩
  rcases advances.forth id n stored with still | ⟨h, reached, node, -, -⟩
  · exact still
  · exact absurd node (apart h reached)

theorem Arena.Becomes.unique {b' : Arena} (founded : Founded a root) (one : a.Becomes g root b)
    (other : a.Becomes g root b') : b = b' := by
  have sizes : b.size = b'.size := one.stays.size.trans other.stays.size.symm
  refine eq_of_nodes sizes.le fun id m stored => ?_
  obtain ⟨n, found⟩ := exists_node_of_lt (a := a) (i := id.index)
    ((lt_size_of_node stored).trans_eq other.stays.size)
  by_cases reached : ∃ h, Reaches a root h ∧ h.node = id
  · obtain ⟨h, reached, rfl⟩ := reached
    obtain ⟨n', shown⟩ := (founded.of_reaches reached).shows
    rw [one.reached h n' reached shown, ← other.reached h n' reached shown, stored]
  · have apart : ∀ h, Reaches a root h → h.node ≠ id := fun h reach same => reached ⟨h, reach, same⟩
    rw [one.others id n apart found, ← other.others id n apart found, stored]

theorem Arena.Becomes.not_loose (resolution : Resolution a g) (founded : Founded a root)
    (becomes : a.Becomes g root b) (reached : Reaches a root h) (j : Nat) :
    (h.node, j) ∉ b.loose g := by
  rintro ⟨c, ⟨m, stored, child⟩, comes⟩
  obtain ⟨n, shown⟩ := (founded.of_reaches reached).shows
  cases (becomes.reached h n reached shown).symm.trans stored
  rw [Node.children_mapChildren, List.getElem?_map] at child
  obtain ⟨c₀, child₀, rfl⟩ := Option.map_eq_some_iff.mp child
  have below := founded.of_reaches (reached.child shown (List.mem_of_getElem? child₀))
  exact comes (resolution.fixed below)

/-- The loose slots that are left are those that are not below `root`. -/
theorem Arena.Becomes.ncard_loose (resolution : Resolution a g) (founded : Founded a root)
    (becomes : a.Becomes g root b) :
    (a.loose g).ncard = (a.looseFrom g root).ncard + (b.loose g).ncard := by
  have split : a.loose g = a.looseFrom g root ∪ b.loose g := by
    ext ⟨id, j⟩
    by_cases reached : ∃ h, Reaches a root h ∧ h.node = id
    · obtain ⟨h, reached, rfl⟩ := reached
      obtain ⟨n, shown⟩ := (founded.of_reaches reached).shows
      constructor
      · rintro ⟨c, ⟨n', stored, child⟩, comes⟩
        cases shown.1.symm.trans stored
        exact .inl ⟨c, ⟨h, n, reached, shown, rfl, child⟩, comes⟩
      · rintro (⟨c, holds, comes⟩ | left)
        · exact ⟨c, held_of_holds holds, comes⟩
        · exact absurd left (becomes.not_loose resolution founded reached j)
    · have apart : ∀ h, Reaches a root h → h.node ≠ id := fun h reach same => reached ⟨h, reach, same⟩
      constructor
      · rintro ⟨c, ⟨n, stored, child⟩, comes⟩
        exact .inr ⟨c, ⟨n, becomes.others id n apart stored, child⟩, comes⟩
      · rintro (⟨c, ⟨h, _, reach, _, same, _⟩, _⟩ | ⟨c, ⟨m, stored, child⟩, comes⟩)
        · exact absurd same (apart h reach)
        · obtain ⟨n, found⟩ := exists_node_of_lt (a := a) (i := id.index)
            ((lt_size_of_node stored).trans_eq becomes.stays.size)
          cases (becomes.others id n apart found).symm.trans stored
          exact ⟨c, ⟨m, found, child⟩, comes⟩
  have apart : Disjoint (a.looseFrom g root) (b.loose g) := by
    rw [Set.disjoint_left]
    rintro ⟨id, j⟩ ⟨c, ⟨h, n, reached, shown, rfl, child⟩, _⟩
    exact becomes.not_loose resolution founded reached j
  rw [split, Set.ncard_union_eq apart ?_ (b.finite_loose g)]
  refine (a.finite_loose g).subset ?_
  rw [split]
  exact Set.subset_union_left

end Becomes

/-- From any world with the arena `a` the pass succeeds, keeps the root and leaves the arena `b`. It
reports `count`, unless its count then does not fit in a word. -/
def Transformer.Reports (r : Transformer σ) (root : NodeId) (a b : Arena) (count : Nat) : Prop :=
  ∀ w : World (Tally σ), w.arena = a → w.state.replaced.toNat + count < 2 ^ 64 →
    ∃ enough w', w'.arena = b ∧
      ∀ steps, enough ≤ steps → r.transform steps root w = some (.ok (root, UInt64.ofNat count), w')

namespace Transformer

variable {r : Transformer σ} {root : NodeId}

theorem transform_of_ends {w : World (Tally σ)} {good : World (Tally σ) → Prop} (count : Nat)
    (ends : Ends r.body [] (Script.perform (Sum.inl (Call.enter ⟨.module, root⟩))
      (w.note (.started .transform root))) (fun _ new w' => new = root ∧ good w') fun _ _ _ => False)
    (counts : ∀ w', good w' → w'.state.replaced = w.state.replaced + UInt64.ofNat count)
    (fits : w.state.replaced.toNat + count < 2 ^ 64) :
    ∃ enough w', good w' ∧ ∀ steps, enough ≤ steps → r.transform steps root w =
      some (.ok (root, UInt64.ofNat count), w'.note (.transformed (UInt64.ofNat count) false)) := by
  obtain ⟨enough, past, result, w', runs, holds⟩ := ends.run
  cases result with
  | error e => exact holds.elim
  | ok new =>
    obtain ⟨kept, met⟩ := holds
    refine ⟨enough, w', met, fun steps more => ?_⟩
    have counted : w'.state.replaced.toNat = w.state.replaced.toNat + count := by
      rw [counts w' met, UInt64.toNat_add, UInt64.toNat_ofNat']
      omega
    have grown : growth w.state.replaced w'.state.replaced = UInt64.ofNat count := by
      apply UInt64.toNat_inj.mp
      rw [toNat_growth (by omega), counted, Nat.add_sub_cancel_left, UInt64.toNat_ofNat']
      omega
    have run : r.run steps (.enter ⟨.module, root⟩) (w.note (.started .transform root)) =
        some (.ok new, w') := (runs steps more).1
    rw [transform, run, kept]
    simp [grown]

/-- A pass that resolves handles overwrites the loose slots below the root, each of them once. -/
theorem Resolves.reports [Nonempty σ] (resolves : r.Resolves a g)
    (founded : Founded a ⟨.module, root⟩) (keeps : g ⟨.module, root⟩ = root) :
    ∃ b, a.Becomes g ⟨.module, root⟩ b ∧
      r.Reports root a b (a.looseFrom g ⟨.module, root⟩).ncard := by
  have each : ∀ w : World (Tally σ), w.arena = a → Ends r.body []
      (Script.perform (Sum.inl (Call.enter ⟨.module, root⟩)) w)
      (fun _ new w' => new = root ∧ a.Becomes g ⟨.module, root⟩ w'.arena ∧
        w'.state.replaced = w.state.replaced +
          UInt64.ofNat (a.looseFrom g ⟨.module, root⟩).ncard) fun _ _ _ => False := by
    intro w same
    refine (resolves.enter_ends founded [] w (same ▸ .refl _) (same ▸ .refl a g _)).mono
      (fun _ new w' ends => ?_) fun _ _ _ no => no
    obtain ⟨rfl, advances⟩ := ends
    have becomes := advances.becomes same
    refine ⟨keeps, becomes, ?_⟩
    have count := advances.count
    rw [same, becomes.ncard_loose resolves.toResolution founded, UInt64.ofNat_add,
      ← UInt64.add_assoc] at count
    exact (UInt64.add_left_inj _).mp count
  obtain ⟨own⟩ := ‹Nonempty σ›
  obtain ⟨_, _, result, w₀, -, holds⟩ := (each ⟨a, #[], ⟨0, own⟩⟩ rfl).run
  cases result with
  | error e => exact holds.elim
  | ok new =>
    refine ⟨w₀.arena, holds.2.1, fun w same fits => ?_⟩
    obtain ⟨enough, w', good, runs⟩ := transform_of_ends _
      (each (w.note (.started .transform root)) same) (fun w' good => good.2) fits
    refine ⟨enough, w'.note (.transformed (UInt64.ofNat _) false), ?_, runs⟩
    exact good.1.unique founded holds.2.1

theorem Resolves.reports_rest (resolves : r.Resolves a g) (rests : Rests a g b ⟨.module, root⟩)
    (keeps : g ⟨.module, root⟩ = root) : r.Reports root b b 0 := by
  intro w same fits
  have ends := resolves.rest_ends (w := w.note (.started .transform root)) (same ▸ rests) []
  rw [keeps] at ends
  obtain ⟨enough, w', good, runs⟩ := transform_of_ends 0 ends
    (fun w' good => by rw [good]; exact (UInt64.add_zero _).symm) fits
  refine ⟨enough, w'.note (.transformed (UInt64.ofNat 0) false), ?_, runs⟩
  rw [good]
  exact same

end Transformer

end ProgramTree
