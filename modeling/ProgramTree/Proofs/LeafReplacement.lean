import ProgramTree.Proofs.AnsweredTree
import ProgramTree.Proofs.Resolution

/-!
Replacing childless expressions. A pass puts other childless expressions in the place of those in a set.
It reports the slots that hold one of the set, and finds nothing to do a second time. Since no leaf leads
anywhere, the nodes with children stay where they are (`Arena.Exchanges.reaches_iff`), and what two passes
with disjoint sets do one after the other is what one pass does with their union (`Arena.Exchanges.follow`).
-/

namespace ProgramTree

def Arena.Leaf (a : Arena) (id : NodeId) : Prop :=
  ∃ n, a.Shows ⟨.expression, id⟩ n ∧ n.children = []

/-- An expression of `X` gives way as `rho` says, any other handle keeps its node. -/
def exchange (rho : NodeId → NodeId) (X : Finset NodeId) (h : Handle) : NodeId :=
  if h.category = .expression ∧ h.node ∈ X then rho h.node else h.node

/-- The pass that runs the default dispatch at every entry point and then answers with the exchange. -/
def Transformer.exchanging {σ : Type} (rho : NodeId → NodeId) (X : Finset NodeId) : Transformer σ :=
  answering fun h _ w => ⟨[], .ok (exchange rho X h), w.state.own⟩

/-- The members of `X` are leaves, and give way to leaves outside of `X`. -/
structure Arena.Exchanges (a : Arena) (rho : NodeId → NodeId) (X : Finset NodeId) : Prop where
  leaf : ∀ id ∈ X, a.Leaf id
  image : ∀ id ∈ X, a.Leaf (rho id)
  outside : ∀ id ∈ X, rho id ∉ X

/-- The slots below the root that hold an expression of `X`. -/
def Arena.slotsOf (a : Arena) (root : NodeId) (X : Finset NodeId) : Set (NodeId × Nat) :=
  {slot | ∃ id ∈ X, Holds a ⟨.module, root⟩ slot ⟨.expression, id⟩}

variable {a b b' : Arena} {rho : NodeId → NodeId} {X P Q : Finset NodeId} {h : Handle} {n : Node}
  {id root : NodeId}

theorem Arena.Leaf.stays (leaf : a.Leaf id) (stays : a.Stays b) : b.Leaf id := by
  obtain ⟨n, shown, none⟩ := leaf
  obtain ⟨m, stored, alike⟩ := stays.grows.node shown.1
  obtain rfl := alike.eq_of_childless none
  exact ⟨m, ⟨stored, shown.2⟩, none⟩

theorem Arena.Leaf.childless (leaf : a.Leaf id) (stored : a.node id = .ok n) : n.children = [] := by
  obtain ⟨n', shown, none⟩ := leaf
  cases shown.1.symm.trans stored
  exact none

theorem exchange_eq_or (rho : NodeId → NodeId) (X : Finset NodeId) (h : Handle) :
    (h.category = .expression ∧ h.node ∈ X ∧ exchange rho X h = rho h.node) ∨
      exchange rho X h = h.node := by
  unfold exchange
  split_ifs with given
  · exact .inl ⟨given.1, given.2, rfl⟩
  · exact .inr rfl

theorem exchange_of_notMem (apart : h.node ∉ X) : exchange rho X h = h.node :=
  if_neg fun given => apart given.2

theorem exchange_exchange (outside : ∀ id ∈ P, rho id ∉ P ∪ Q) (h : Handle) :
    exchange rho Q ⟨h.category, exchange rho P h⟩ = exchange rho (P ∪ Q) h := by
  by_cases mem : h.category = .expression ∧ h.node ∈ P
  · have first : exchange rho P h = rho h.node := if_pos mem
    have both : exchange rho (P ∪ Q) h = rho h.node := if_pos ⟨mem.1, Finset.mem_union_left _ mem.2⟩
    have apart : rho h.node ∉ Q := fun bad => outside _ mem.2 (Finset.mem_union_right _ bad)
    rw [first, both, exchange_of_notMem apart]
  · have kept : exchange rho P h = h.node := if_neg mem
    have iff : (h.category = .expression ∧ h.node ∈ P ∪ Q) ↔
        (h.category = .expression ∧ h.node ∈ Q) := by
      rw [Finset.mem_union]
      tauto
    rw [kept]
    simp only [exchange, iff]

namespace Arena.Exchanges

theorem subset (exchanges : a.Exchanges rho X) (part : P ⊆ X) : a.Exchanges rho P where
  leaf id mem := exchanges.leaf id (part mem)
  image id mem := exchanges.image id (part mem)
  outside id mem inside := exchanges.outside id (part mem) (part inside)

theorem stays (exchanges : a.Exchanges rho X) (stays : a.Stays b) : b.Exchanges rho X where
  leaf id mem := (exchanges.leaf id mem).stays stays
  image id mem := (exchanges.image id mem).stays stays
  outside := exchanges.outside

theorem exchange_ne_iff (exchanges : a.Exchanges rho X) (h : Handle) :
    exchange rho X h ≠ h.node ↔ h.category = .expression ∧ h.node ∈ X := by
  constructor
  · intro changed
    by_contra not
    exact changed (if_neg not)
  · intro given same
    rw [exchange, if_pos given] at same
    exact exchanges.outside _ given.2 (same.symm ▸ given.2)

theorem looseFrom_eq (exchanges : a.Exchanges rho X) (b : Arena) (root : NodeId) :
    b.looseFrom (exchange rho X) ⟨.module, root⟩ = b.slotsOf root X := by
  ext slot
  constructor
  · rintro ⟨⟨category, id⟩, holds, changed⟩
    obtain ⟨rfl, mem⟩ := (exchanges.exchange_ne_iff _).mp changed
    exact ⟨id, mem, holds⟩
  · rintro ⟨id, mem, holds⟩
    exact ⟨_, holds, (exchanges.exchange_ne_iff _).mpr ⟨rfl, mem⟩⟩

theorem resolution (exchanges : a.Exchanges rho X) : Resolution a (exchange rho X) where
  fixed {h} _ := by
    rcases exchange_eq_or rho X h with ⟨-, mem, same⟩ | same
    · rw [same]
      exact exchange_of_notMem (exchanges.outside _ mem)
    · rw [same]
      exact same
  leads {h n} _ _ := by
    rcases exchange_eq_or rho X h with ⟨category, mem, same⟩ | same
    · rw [same, category]
      exact .inr (.inl (exchanges.image _ mem))
    · exact .inl same

theorem resolves {σ : Type} (exchanges : a.Exchanges rho X) :
    (Transformer.exchanging rho X : Transformer σ).Resolves a (exchange rho X) where
  toResolution := exchanges.resolution
  enter {h n m past w good} _ shown shown' tag walks := by
    have walked : ∀ past, Ends (Transformer.exchanging rho X : Transformer σ).body past
        (Script.perform (Sum.inl (Call.walk n.tag h.node)) w) (fun _ _ w' => good w')
        fun _ _ _ => False := fun past =>
      .call ((walks _).mono (fun _ _ _ holds => holds.2) fun _ _ _ no => no)
    have dispatched : ∀ past, Ends (Transformer.exchanging rho X : Transformer σ).body past
        (Script.perform (Sum.inl (Call.dispatch h)) w) (fun _ _ w' => good w')
        fun _ _ _ => False := by
      refine fun past => .call ?_
      rw [Transformer.body, Script.step_bind (World.classify_of_shows shown'), tag,
        Transformer.exchanging, Transformer.body_method]
      exact .bind (walked _) fun _ _ _ holds => .ok holds
    refine .call ?_
    rw [Transformer.exchanging, Transformer.body_enter]
    exact .bind (dispatched _) fun _ _ _ holds => .ok ⟨rfl, holds⟩

section Second

variable (exchanges : a.Exchanges rho P) (founded : Founded a ⟨.module, root⟩)
  (becomes : a.Becomes (exchange rho P) ⟨.module, root⟩ b)

include exchanges founded becomes

theorem founded_after : Founded b ⟨.module, root⟩ :=
  (exchanges.resolution.rests founded becomes.stays becomes.reached).1.founded

omit founded in
theorem reaches_after (reaches : Reaches a ⟨.module, root⟩ h) :
    Reaches b ⟨.module, root⟩ ⟨h.category, exchange rho P h⟩ := by
  induction reaches with
  | root => exact .root
  | @child h c n reached shown child ih =>
    rcases exchange_eq_or rho P h with ⟨-, mem, -⟩ | kept
    · rw [(exchanges.leaf _ mem).childless shown.1] at child
      cases child
    · rw [kept] at ih
      refine ih.child ⟨becomes.reached h n reached shown, shown.2⟩ ?_
      rw [Node.children_mapChildren]
      exact List.mem_map_of_mem child

/-- A handle that is reached now was reached before, or is a leaf. -/
theorem reaches_before (reaches : Reaches b ⟨.module, root⟩ h) :
    Reaches a ⟨.module, root⟩ h ∨ a.Leaf h.node := by
  induction reaches with
  | root => exact .inl .root
  | @child h c m _ shown child ih =>
    rcases ih with reached | leaf
    · obtain ⟨n, shown'⟩ := (founded.of_reaches reached).shows
      cases (becomes.reached h n reached shown').symm.trans shown.1
      rw [Node.children_mapChildren] at child
      obtain ⟨c, child₀, rfl⟩ := List.mem_map.mp child
      rcases exchange_eq_or rho P c with ⟨-, mem, same⟩ | same
      · rw [same]
        exact .inr (exchanges.image _ mem)
      · rw [same]
        exact .inl (reached.child shown' child₀)
    · rw [(leaf.stays becomes.stays).childless shown.1] at child
      cases child

theorem reaches_iff (stored : a.node h.node = .ok n) (parent : n.children ≠ []) :
    Reaches b ⟨.module, root⟩ h ↔ Reaches a ⟨.module, root⟩ h := by
  constructor
  · intro reached
    rcases exchanges.reaches_before founded becomes reached with before | leaf
    · exact before
    · exact absurd (leaf.childless stored) parent
  · intro reached
    have after := exchanges.reaches_after becomes reached
    rcases exchange_eq_or rho P h with ⟨-, mem, -⟩ | kept
    · exact absurd ((exchanges.leaf _ mem).childless stored) parent
    · rwa [kept] at after

/-- An exchange for `Q` that follows leads to what an exchange for both leads to. -/
theorem follow (outside : ∀ id ∈ P, rho id ∉ P ∪ Q)
    (later : b.Becomes (exchange rho Q) ⟨.module, root⟩ b') :
    a.Becomes (exchange rho (P ∪ Q)) ⟨.module, root⟩ b' := by
  have stays : a.Stays b' := becomes.stays.trans later.stays
  have leaves : ∀ id n, a.node id = .ok n → n.children = [] → b'.node id = .ok n := by
    intro id n stored none
    obtain ⟨m, stored', alike⟩ := stays.grows.node stored
    rwa [alike.eq_of_childless none] at stored'
  refine ⟨stays, fun h n reached shown => ?_, fun id n apart stored => ?_⟩
  · by_cases none : n.children = []
    · rw [Node.mapChildren_id (by simp [none])]
      exact leaves _ n shown.1 none
    · have after := (exchanges.reaches_iff founded becomes shown.1 none).mpr reached
      rw [later.reached h _ after ⟨becomes.reached h n reached shown, shown.2⟩,
        Node.mapChildren_mapChildren]
      simp only [exchange_exchange outside]
  · by_cases none : n.children = []
    · exact leaves id n stored none
    · refine later.others id n (fun h reached same => ?_) (becomes.others id n apart stored)
      subst same
      exact apart h ((exchanges.reaches_iff founded becomes stored none).mp reached) rfl

theorem slotsOf_after (disjoint : Disjoint P Q) (outside : ∀ id ∈ P, rho id ∉ P ∪ Q) :
    b.slotsOf root Q = a.slotsOf root Q := by
  ext ⟨owner, j⟩
  constructor
  · rintro ⟨id, mem, h, m, reached, shown, rfl, child⟩
    have parent : m.children ≠ [] := fun none => by simp [none] at child
    have before : Reaches a ⟨.module, root⟩ h := by
      rcases exchanges.reaches_before founded becomes reached with before | leaf
      · exact before
      · exact absurd ((leaf.stays becomes.stays).childless shown.1) parent
    obtain ⟨n, shown'⟩ := (founded.of_reaches before).shows
    cases (becomes.reached h n before shown').symm.trans shown.1
    rw [Node.children_mapChildren, List.getElem?_map] at child
    obtain ⟨⟨category, id₀⟩, child₀, same⟩ := Option.map_eq_some_iff.mp child
    obtain ⟨rfl, came⟩ := Handle.mk.inj same
    rcases exchange_eq_or rho P ⟨.expression, id₀⟩ with ⟨-, given, new⟩ | kept
    · rw [new] at came
      exact absurd (Finset.mem_union_right P mem) (came ▸ outside _ given)
    · obtain rfl : id₀ = id := kept.symm.trans came
      exact ⟨_, mem, h, n, before, shown', rfl, child₀⟩
  · rintro ⟨id, mem, h, n, reached, shown, rfl, child⟩
    have parent : n.children ≠ [] := fun none => by simp [none] at child
    have after := (exchanges.reaches_iff founded becomes shown.1 parent).mpr reached
    refine ⟨id, mem, h, _, after, ⟨becomes.reached h n reached shown, shown.2⟩, rfl, ?_⟩
    rw [Node.children_mapChildren, List.getElem?_map, child, Option.map_some,
      exchange_of_notMem (Finset.disjoint_right.mp disjoint mem)]

end Second

/-- One pass: it reports the slots of `X`, and nothing the next time. -/
theorem reports {σ : Type} [Nonempty σ] (exchanges : a.Exchanges rho X)
    (founded : Founded a ⟨.module, root⟩) :
    ∃ b, a.Becomes (exchange rho X) ⟨.module, root⟩ b ∧
      (Transformer.exchanging rho X : Transformer σ).Reports root a b (a.slotsOf root X).ncard ∧
      (Transformer.exchanging rho X : Transformer σ).Reports root b b 0 := by
  have keeps : exchange rho X ⟨.module, root⟩ = root := if_neg fun given => nomatch given.1
  obtain ⟨b, becomes, reports⟩ := exchanges.resolves (σ := σ).reports founded keeps
  rw [exchanges.looseFrom_eq] at reports
  have rests := (exchanges.resolution.rests founded becomes.stays becomes.reached).1
  exact ⟨b, becomes, reports, exchanges.resolves.reports_rest rests keeps⟩

theorem reports_two {σ : Type} [Nonempty σ] (exchanges : a.Exchanges rho (P ∪ Q))
    (disjoint : Disjoint P Q) (founded : Founded a ⟨.module, root⟩) :
    ∃ b b', a.Becomes (exchange rho (P ∪ Q)) ⟨.module, root⟩ b' ∧
      (Transformer.exchanging rho P : Transformer σ).Reports root a b (a.slotsOf root P).ncard ∧
      (Transformer.exchanging rho P : Transformer σ).Reports root b b 0 ∧
      (Transformer.exchanging rho Q : Transformer σ).Reports root b b' (a.slotsOf root Q).ncard := by
  have first : a.Exchanges rho P := exchanges.subset Finset.subset_union_left
  have outside : ∀ id ∈ P, rho id ∉ P ∪ Q := fun id mem =>
    exchanges.outside id (Finset.mem_union_left _ mem)
  obtain ⟨b, becomes, reports, again⟩ := first.reports (σ := σ) founded
  have second : b.Exchanges rho Q := (exchanges.subset Finset.subset_union_right).stays becomes.stays
  obtain ⟨b', later, reports', -⟩ :=
    second.reports (σ := σ) (first.founded_after founded becomes)
  rw [first.slotsOf_after founded becomes disjoint outside] at reports'
  exact ⟨b, b', first.follow founded becomes outside later, reports, again, reports'⟩

theorem ncard_slotsOf_union (exchanges : a.Exchanges rho (P ∪ Q)) (disjoint : Disjoint P Q) :
    (a.slotsOf root (P ∪ Q)).ncard = (a.slotsOf root P).ncard + (a.slotsOf root Q).ncard := by
  have split : a.slotsOf root (P ∪ Q) = a.slotsOf root P ∪ a.slotsOf root Q := by
    ext slot
    simp only [slotsOf, Finset.mem_union, Set.mem_union, Set.mem_ofPred_eq]
    constructor
    · rintro ⟨id, inP | inQ, holds⟩
      · exact .inl ⟨id, inP, holds⟩
      · exact .inr ⟨id, inQ, holds⟩
    · rintro (⟨id, inP, holds⟩ | ⟨id, inQ, holds⟩)
      · exact ⟨id, .inl inP, holds⟩
      · exact ⟨id, .inr inQ, holds⟩
  have apart : Disjoint (a.slotsOf root P) (a.slotsOf root Q) := by
    rw [Set.disjoint_left]
    rintro slot ⟨id, inP, h, n, -, shown, same, child⟩ ⟨id', inQ, h', n', -, shown', same', child'⟩
    have one : n = n' := Except.ok.inj (shown.1.symm.trans ((same.trans same'.symm) ▸ shown'.1))
    subst one
    cases child.symm.trans child'
    exact Finset.disjoint_left.mp disjoint inP inQ
  have finite : (a.slotsOf root (P ∪ Q)).Finite := by
    rw [← exchanges.looseFrom_eq]
    refine (a.finite_loose (exchange rho (P ∪ Q))).subset ?_
    rintro slot ⟨c, holds, changed⟩
    exact ⟨c, held_of_holds holds, changed⟩
  rw [split] at finite ⊢
  exact Set.ncard_union_eq apart (finite.subset Set.subset_union_left)
    (finite.subset Set.subset_union_right)

end Arena.Exchanges

/-- Replacements of disjoint sets of leaves are independent. Each pass reports the slots of its own set
and has nothing to do a second time. In whatever order they run, they leave the arena that one pass for
the union leaves, which reports as much as both. -/
theorem exchanges_commute {σ : Type} [Inhabited σ] (a : Arena) (root : NodeId) (rho : NodeId → NodeId)
    (P Q : Finset NodeId) (acyclic : Acyclic a ⟨.module, root⟩)
    (good : ∀ h, Reaches a ⟨.module, root⟩ h → a.Good h) (disjoint : Disjoint P Q)
    (exchanges : a.Exchanges rho (P ∪ Q)) :
    ∃ afterP afterQ after : Arena,
      (Transformer.exchanging rho P : Transformer σ).Reports root a afterP (a.slotsOf root P).ncard ∧
      (Transformer.exchanging rho P : Transformer σ).Reports root afterP afterP 0 ∧
      (Transformer.exchanging rho Q : Transformer σ).Reports root afterP after
        (a.slotsOf root Q).ncard ∧
      (Transformer.exchanging rho Q : Transformer σ).Reports root a afterQ (a.slotsOf root Q).ncard ∧
      (Transformer.exchanging rho P : Transformer σ).Reports root afterQ after
        (a.slotsOf root P).ncard ∧
      (Transformer.exchanging rho (P ∪ Q) : Transformer σ).Reports root a after
        ((a.slotsOf root P).ncard + (a.slotsOf root Q).ncard) := by
  have founded := Founded.of_acyclic acyclic good
  obtain ⟨afterP, after, becomes, firstP, again, thenQ⟩ :=
    exchanges.reports_two (σ := σ) disjoint founded
  have swapped : a.Exchanges rho (Q ∪ P) := Finset.union_comm P Q ▸ exchanges
  obtain ⟨afterQ, after', becomes', firstQ, -, thenP⟩ :=
    swapped.reports_two (σ := σ) disjoint.symm founded
  obtain ⟨after'', becomes'', both, -⟩ := exchanges.reports (σ := σ) founded
  rw [Finset.union_comm Q P] at becomes'
  rw [exchanges.ncard_slotsOf_union disjoint] at both
  rw [becomes'.unique founded becomes] at thenP
  rw [becomes''.unique founded becomes] at both
  exact ⟨afterP, afterQ, after, firstP, again, thenQ, firstQ, thenP, both⟩

/-- A namespace that holds a sum twice, and also the left one of its sides. -/
def leafSample : Arena :=
  .ofList
    [⟨.nameSpace, ("all", [], [], [], [⟨1⟩, ⟨1⟩, ⟨2⟩], [], ()), .dummy⟩,
      ⟨.binaryOperator, (.add, ⟨2⟩, ⟨3⟩, ()), .dummy⟩, ⟨.constant, (.int 1, ()), .dummy⟩,
      ⟨.constant, (.int 2, ()), .dummy⟩, ⟨.constant, (.int 3, ()), .dummy⟩]

theorem leafSample_child {id : NodeId} {n : Node} {c : Handle} {j : Nat}
    (found : leafSample.node id = .ok n) (child : n.children[j]? = some c) :
    leafSample.Good c ∧ id.index < c.node.index ∧
      (c.node = ⟨2⟩ → (id, j) = (⟨0⟩, 2) ∨ (id, j) = (⟨1⟩, 0)) ∧ (c.node = ⟨3⟩ → (id, j) = (⟨1⟩, 1)) := by
  obtain ⟨_ | _ | _ | _ | _ | k⟩ := id
  · cases found
    rcases j with _ | _ | _ | j <;> cases child <;> exact ⟨⟨_, rfl, rfl⟩, by decide, by decide, by decide⟩
  · cases found
    rcases j with _ | _ | j <;> cases child <;> exact ⟨⟨_, rfl, rfl⟩, by decide, by decide, by decide⟩
  · cases found
    cases child
  · cases found
    cases child
  · cases found
    cases child
  · cases found

/-- The left side is replaced in two slots, although there are three ways to it, and the right side in
one. -/
theorem exchanges_commute_leafSample :
    ∃ after : Arena, (∃ afterP,
        (Transformer.exchanging (fun _ => ⟨4⟩) {⟨2⟩} : Transformer Unit).Reports ⟨0⟩ leafSample afterP 2 ∧
        (Transformer.exchanging (fun _ => ⟨4⟩) {⟨3⟩} : Transformer Unit).Reports ⟨0⟩ afterP after 1) ∧
      (Transformer.exchanging (fun _ => ⟨4⟩) ({⟨2⟩} ∪ {⟨3⟩}) : Transformer Unit).Reports ⟨0⟩ leafSample
        after 3 := by
  have typed : leafSample.WellTyped := fun id n found c mem => by
    obtain ⟨j, child⟩ := List.mem_iff_getElem?.mp mem
    exact (leafSample_child found child).1
  have acyclic : Acyclic leafSample ⟨.module, ⟨0⟩⟩ := .of_lt fun found mem => by
    obtain ⟨j, child⟩ := List.mem_iff_getElem?.mp mem
    exact (leafSample_child found child).2.1
  have leaves : leafSample.Exchanges (fun _ => ⟨4⟩) ({⟨2⟩} ∪ {⟨3⟩}) := by
    refine ⟨fun id mem => ?_, fun _ _ => ⟨_, ⟨rfl, rfl⟩, rfl⟩, by decide⟩
    obtain rfl | rfl : id = ⟨2⟩ ∨ id = ⟨3⟩ := by simpa using mem
    · exact ⟨_, ⟨rfl, rfl⟩, rfl⟩
    · exact ⟨_, ⟨rfl, rfl⟩, rfl⟩
  have left : leafSample.slotsOf ⟨0⟩ {⟨2⟩} = {(⟨0⟩, 2), (⟨1⟩, 0)} := by
    ext slot
    constructor
    · rintro ⟨id, mem, h, n, -, shown, same, child⟩
      have found := (leafSample_child shown.1 child).2.2.1 (Finset.mem_singleton.mp mem)
      rwa [same] at found
    · rintro (rfl | rfl)
      · exact ⟨⟨2⟩, Finset.mem_singleton_self _, _, _, .root, ⟨rfl, rfl⟩, rfl, rfl⟩
      · exact ⟨⟨2⟩, Finset.mem_singleton_self _, ⟨.expression, ⟨1⟩⟩, _,
          .child .root ⟨rfl, rfl⟩ List.mem_cons_self, ⟨rfl, rfl⟩, rfl, rfl⟩
  have right : leafSample.slotsOf ⟨0⟩ {⟨3⟩} = {(⟨1⟩, 1)} := by
    ext slot
    constructor
    · rintro ⟨id, mem, h, n, -, shown, same, child⟩
      have found := (leafSample_child shown.1 child).2.2.2 (Finset.mem_singleton.mp mem)
      rwa [same] at found
    · rintro rfl
      exact ⟨⟨3⟩, Finset.mem_singleton_self _, ⟨.expression, ⟨1⟩⟩, _,
        .child .root ⟨rfl, rfl⟩ List.mem_cons_self, ⟨rfl, rfl⟩, rfl, rfl⟩
  obtain ⟨afterP, _, after, first, -, later, -, -, both⟩ := exchanges_commute (σ := Unit) leafSample ⟨0⟩
    (fun _ => ⟨4⟩) {⟨2⟩} {⟨3⟩} acyclic (fun h => typed.good_of_reaches ⟨_, rfl, rfl⟩) (by decide) leaves
  have two : (leafSample.slotsOf ⟨0⟩ {⟨2⟩}).ncard = 2 := by
    rw [left]
    exact Set.ncard_pair (by decide)
  have one : (leafSample.slotsOf ⟨0⟩ {⟨3⟩}).ncard = 1 := by
    rw [right]
    exact Set.ncard_singleton _
  rw [two] at first
  rw [one] at later
  rw [two, one] at both
  exact ⟨after, ⟨afterP, first, later⟩, both⟩

end ProgramTree
