import ProgramTree.Proofs.Conduct

/-!
The chronicle of an arena: what was done to it since it was empty, with the answers. The chronicle tells
all there is in the arena. Nodes are numbered in the order of their allocation and keep variant and span,
and what a node stores is what it was allocated with, after the successful edits of just that node
(`arena_follows_chronicle`).
-/

namespace ProgramTree

namespace Arena

/-- What can be done to an arena. -/
inductive Deed where
  | alloc (n : Node)
  | allocAs (n : Node)
  | edit (t : Tag) (id : NodeId) (f : Record t.fields → Record t.fields)

inductive Answer where
  | id (id : NodeId)
  | handle (h : Handle)
  | edited
  | failed (e : Fault)
  deriving DecidableEq

/-- Does the deed. One that fails changes nothing. -/
def Deed.perform (a : Arena) : Deed → Answer × Arena
  | alloc n => (.id (a.alloc n).1, (a.alloc n).2)
  | allocAs n => (.handle ⟨n.category, (a.alloc n).1⟩, (a.alloc n).2)
  | edit t id f =>
    match a.edit t id f with
    | .ok b => (.edited, b)
    | .error e => (.failed e, a)

/-- The deeds done one after the other from the empty arena on, each with its answer, and the arena
after them. -/
def chronicle (deeds : List Deed) : List (Deed × Answer) × Arena :=
  deeds.foldl (fun (past, a) deed => (past ++ [(deed, (deed.perform a).1)], (deed.perform a).2))
    ([], empty)

def Deed.node? : Deed → Option Node
  | alloc n | allocAs n => some n
  | edit .. => none

def allocated (past : List (Deed × Answer)) : List Node :=
  past.filterMap fun p => p.1.node?

/-- What a deed that had this answer has made of the record of node `id` of variant `t`. -/
def Deed.change? (t : Tag) (id : NodeId) : Deed × Answer → Option (Record t.fields → Record t.fields)
  | (edit t' id' f, .edited) => if same : t' = t ∧ id' = id then some (same.1 ▸ f) else none
  | _ => none

def edits (t : Tag) (id : NodeId) (past : List (Deed × Answer)) :
    List (Record t.fields → Record t.fields) :=
  past.filterMap (Deed.change? t id)

/-- The node `id` that was allocated as `n`, after all successful edits of it. -/
def edited (id : NodeId) (past : List (Deed × Answer)) (n : Node) : Node :=
  ⟨n.tag, (edits n.tag id past).foldl (fun record f => f record) n.record, n.span⟩

/-- The answer to an allocation when `k` nodes were allocated before. -/
def Deed.promised? (k : Nat) : Deed → Option Answer
  | alloc _ => some (.id ⟨k⟩)
  | allocAs n => some (.handle ⟨n.category, ⟨k⟩⟩)
  | edit .. => none

/-- The arena is what the chronicle tells. -/
structure Follows (a : Arena) (past : List (Deed × Answer)) : Prop where
  answers : ∀ i (deed : Deed) answer promised, past[i]? = some (deed, answer) →
    deed.promised? (allocated (past.take i)).length = some promised → answer = promised
  size : a.size = (allocated past).length
  node : ∀ k n, (allocated past)[k]? = some n → a.node ⟨k⟩ = .ok (edited ⟨k⟩ past n)
  unborn : ∀ t id, a.size ≤ id.index → edits t id past = []

section Step

variable {a : Arena} {past : List (Deed × Answer)} {n : Node} {t : Tag} {id : NodeId}
  {f : Record t.fields → Record t.fields} {deed : Deed} {answer : Answer} {e : Fault}

theorem allocated_append (past later : List (Deed × Answer)) :
    allocated (past ++ later) = allocated past ++ allocated later :=
  List.filterMap_append

theorem allocated_append_edit (past : List (Deed × Answer)) (t : Tag) (id : NodeId)
    (f : Record t.fields → Record t.fields) (answer : Answer) :
    allocated (past ++ [(.edit t id f, answer)]) = allocated past :=
  (allocated_append _ _).trans (List.append_nil _)

theorem edits_append (t : Tag) (id : NodeId) (past later : List (Deed × Answer)) :
    edits t id (past ++ later) = edits t id past ++ edits t id later :=
  List.filterMap_append

theorem edits_self (t : Tag) (id : NodeId) (f : Record t.fields → Record t.fields) :
    edits t id [(.edit t id f, .edited)] = [f] := by
  simp [edits, Deed.change?]

theorem edited_append_of_none {later : List (Deed × Answer)} (none : edits n.tag id later = []) :
    edited id (past ++ later) n = edited id past n := by
  rw [edited, edits_append, none, List.append_nil, edited]

theorem edited_append_self (f : Record n.tag.fields → Record n.tag.fields) :
    edited id (past ++ [(.edit n.tag id f, .edited)]) n =
      (edited id past n).withRecord n.tag (f (edited id past n).record) := by
  rw [edited, edits_append, edits_self, List.foldl_append]
  rfl

theorem Follows.answers_snoc (follows : a.Follows past)
    (last : ∀ promised, deed.promised? a.size = some promised → answer = promised) :
    ∀ i (d : Deed) x promised, (past ++ [(deed, answer)])[i]? = some (d, x) →
      d.promised? (allocated ((past ++ [(deed, answer)]).take i)).length = some promised →
      x = promised := by
  intro i d x promised here expects
  rcases Nat.lt_trichotomy i past.length with before | rfl | beyond
  · rw [List.getElem?_append_left before] at here
    rw [List.take_append_of_le_length (Nat.le_of_lt before)] at expects
    exact follows.answers i d x promised here expects
  · rw [List.getElem?_concat_length] at here
    cases here
    rw [List.take_left, ← follows.size] at expects
    exact last promised expects
  · rw [List.getElem?_eq_none (by simpa [Nat.add_one_le_iff] using beyond)] at here
    cases here

theorem Follows.alloc (follows : a.Follows past) (allocates : deed.node? = some n)
    (promised : deed.promised? a.size = some answer) :
    (a.alloc n).2.Follows (past ++ [(deed, answer)]) := by
  have one : allocated [(deed, answer)] = [n] := by simp [allocated, allocates]
  have none : ∀ t id, edits t id [(deed, answer)] = [] := by
    intro t id
    cases deed with
    | alloc _ | allocAs _ => rfl
    | edit t' id' f => cases allocates
  refine ⟨follows.answers_snoc fun _ expects => Option.some.inj (promised.symm.trans expects), ?_, ?_, ?_⟩
  · rw [size_alloc, follows.size, allocated_append, one, List.length_append, List.length_singleton]
  · intro k m there
    rw [edited_append_of_none (none _ _)]
    rw [allocated_append, one] at there
    rcases Nat.lt_trichotomy k (allocated past).length with before | rfl | beyond
    · rw [List.getElem?_append_left before] at there
      exact node_alloc_of_ok n (follows.node k m there)
    · rw [List.getElem?_concat_length] at there
      cases there
      have new : (a.alloc n).1 = ⟨(allocated past).length⟩ := congrArg NodeId.mk follows.size
      rw [edited, follows.unborn _ _ (Nat.le_of_eq follows.size), ← new]
      exact node_alloc_self n
    · rw [List.getElem?_eq_none (by simpa [Nat.add_one_le_iff] using beyond)] at there
      cases there
  · intro t id beyond
    rw [size_alloc] at beyond
    rw [edits_append, none, follows.unborn t id (by omega), List.append_nil]

theorem Follows.failed (follows : a.Follows past) : a.Follows (past ++ [(.edit t id f, .failed e)]) := by
  have none : ∀ t' id', edits t' id' [(Deed.edit t id f, Answer.failed e)] = [] := fun _ _ => rfl
  have same := allocated_append_edit past t id f (.failed e)
  refine ⟨follows.answers_snoc fun _ promised => (by cases promised), ?_, ?_, ?_⟩
  · rw [same, follows.size]
  · intro k n there
    rw [same] at there
    rw [edited_append_of_none (none _ _), follows.node k n there]
  · intro t id beyond
    rw [edits_append, none, follows.unborn t id beyond, List.append_nil]

theorem Follows.edit (follows : a.Follows past) (stored : a.node id = .ok n)
    (f : Record n.tag.fields → Record n.tag.fields) :
    (a.put n.tag id (f n.record)).Follows (past ++ [(.edit n.tag id f, .edited)]) := by
  have same := allocated_append_edit past n.tag id f .edited
  have inside := lt_size_of_node stored
  have none : ∀ t id', id' ≠ id → edits t id' [(Deed.edit n.tag id f, Answer.edited)] = [] := by
    intro t id' other
    simp [edits, Deed.change?, other.symm]
  refine ⟨follows.answers_snoc fun _ promised => (by cases promised), ?_, ?_, ?_⟩
  · rw [size_put, same, follows.size]
  · intro k m there
    rw [same] at there
    have before := follows.node k m there
    by_cases here : (⟨k⟩ : NodeId) = id
    · subst here
      obtain rfl : edited ⟨k⟩ past m = n := Except.ok.inj (before.symm.trans stored)
      rw [node_put_self stored]
      exact congrArg Except.ok (edited_append_self (n := m) f).symm
    · rw [edited_append_of_none (none _ _ here), node_put_ne (Ne.symm here), before]
  · intro t id' beyond
    rw [size_put] at beyond
    have other : id' ≠ id := by
      rintro rfl
      omega
    rw [edits_append, none t id' other, follows.unborn t id' beyond, List.append_nil]

/-- One more deed. -/
theorem Follows.perform (follows : a.Follows past) (deed : Deed) :
    (deed.perform a).2.Follows (past ++ [(deed, (deed.perform a).1)]) := by
  cases deed with
  | alloc n => exact follows.alloc rfl rfl
  | allocAs n => exact follows.alloc rfl rfl
  | edit t id f =>
    rw [Deed.perform]
    cases done : a.edit t id f with
    | error e => exact follows.failed
    | ok b =>
      obtain ⟨n, _, stored, rfl, -⟩ := edit_cases done
      obtain rfl := Except.ok.inj ((edit_of_node stored f).symm.trans done)
      exact follows.edit stored f

end Step

theorem chronicle_concat (deeds : List Deed) (deed : Deed) :
    chronicle (deeds ++ [deed]) =
      ((chronicle deeds).1 ++ [(deed, (deed.perform (chronicle deeds).2).1)],
        (deed.perform (chronicle deeds).2).2) := by
  rw [chronicle, List.foldl_append, ← chronicle]
  rfl

theorem map_fst_chronicle (deeds : List Deed) : (chronicle deeds).1.map Prod.fst = deeds := by
  induction deeds using List.reverseRecOn with
  | nil => rfl
  | append_singleton deeds deed ih => rw [chronicle_concat, List.map_append, ih, List.map_singleton]

theorem chronicle_follows (deeds : List Deed) : (chronicle deeds).2.Follows (chronicle deeds).1 := by
  induction deeds using List.reverseRecOn with
  | nil => exact ⟨by simp [chronicle], rfl, by simp [chronicle, allocated], fun _ _ _ => rfl⟩
  | append_singleton deeds deed ih =>
    rw [chronicle_concat]
    exact ih.perform deed

theorem allocated_later {deeds : List Deed} {k : Nat} {n : Node}
    (there : (allocated (chronicle deeds).1)[k]? = some n) (more : List Deed) :
    (allocated (chronicle (deeds ++ more)).1)[k]? = some n := by
  induction more using List.reverseRecOn with
  | nil => rwa [List.append_nil]
  | append_singleton more deed ih =>
    have within := (List.getElem?_eq_some_iff.mp ih).choose
    rw [← List.append_assoc, chronicle_concat, allocated_append, List.getElem?_append_left within, ih]

/-- Neither reading node `id` as variant `t` nor editing it as that variant works, both for the same
reason, and the edit leaves the arena as it was. -/
def Refuses (a : Arena) (t : Tag) (id : NodeId) (e : Fault) : Prop :=
  a.get t id = .error e ∧ ∀ f, (Deed.edit t id f).perform a = (.failed e, a)

/-- Reading node `id` as variant `t` gives the record, and every edit as that variant is made. -/
def Grants (a : Arena) (t : Tag) (id : NodeId) (record : Record t.fields) : Prop :=
  a.get t id = .ok record ∧ ∀ f, (Deed.edit t id f).perform a = (.edited, a.put t id (f record))

section Access

variable {a : Arena} {n : Node} {t : Tag} {id : NodeId} {e : Fault}

theorem refuses_of_get (got : a.get t id = .error e) : a.Refuses t id e := by
  refine ⟨got, fun f => ?_⟩
  rw [Deed.perform, Arena.edit, got]
  rfl

theorem refuses_of_size_le (beyond : a.size ≤ id.index) :
    a.Refuses t id (.danglingHandle id a.size) := by
  have none : a.nodes[id.index]? = none := Array.getElem?_eq_none beyond
  apply refuses_of_get
  rw [get, node, none]
  rfl

theorem refuses_of_tag_ne (stored : a.node id = .ok n) (other : n.tag ≠ t) :
    a.Refuses t id (.variantMismatch id t n.tag) := by
  have narrowed : n.as? t = none := by simp [Node.as?, other]
  apply refuses_of_get
  rw [get, stored]
  simp only [bind, Except.bind, narrowed]

theorem grants_of_node (stored : a.node id = .ok n) : a.Grants n.tag id n.record := by
  refine ⟨get_of_node stored, fun f => ?_⟩
  rw [Deed.perform, edit_of_node stored]

end Access

/-- Whatever is done to an arena, nodes are numbered in the order of their allocation and keep variant,
category and span. A node can be read and edited as the variant that it was allocated with and in no other
way, and what is read is what was allocated after the successful edits of this node, in order. -/
theorem arena_follows_chronicle (deeds : List Deed) :
    (chronicle deeds).1.map Prod.fst = deeds ∧
    (∀ i (deed : Deed) answer promised, (chronicle deeds).1[i]? = some (deed, answer) →
      deed.promised? (allocated ((chronicle deeds).1.take i)).length = some promised →
      answer = promised) ∧
    (chronicle deeds).2.size = (allocated (chronicle deeds).1).length ∧
    (∀ more k n, (allocated (chronicle deeds).1)[k]? = some n →
      ∃ m, (chronicle (deeds ++ more)).2.node ⟨k⟩ = .ok m ∧ m.tag = n.tag ∧
        m.category = n.category ∧ m.span = n.span) ∧
    (∀ t id, (chronicle deeds).2.size ≤ id.index →
      (chronicle deeds).2.Refuses t id (.danglingHandle id (chronicle deeds).2.size)) ∧
    (∀ t id n, (allocated (chronicle deeds).1)[id.index]? = some n → n.tag ≠ t →
      (chronicle deeds).2.Refuses t id (.variantMismatch id t n.tag)) ∧
    ∀ id n, (allocated (chronicle deeds).1)[id.index]? = some n →
      (chronicle deeds).2.Grants n.tag id
        ((edits n.tag id (chronicle deeds).1).foldl (fun record f => f record) n.record) := by
  have follows := chronicle_follows deeds
  refine ⟨map_fst_chronicle deeds, follows.answers, follows.size, ?_, fun t id => refuses_of_size_le, ?_, ?_⟩
  · intro more k n there
    have later := (chronicle_follows (deeds ++ more)).node k n (allocated_later there more)
    exact ⟨_, later, rfl, rfl, rfl⟩
  · intro t id n there other
    exact refuses_of_tag_ne (n := edited id _ n) (follows.node id.index n there) other
  · intro id n there
    exact grants_of_node (n := edited id _ n) (follows.node id.index n there)

end Arena

end ProgramTree
