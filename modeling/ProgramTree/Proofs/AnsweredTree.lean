import ProgramTree.Proofs.Answering

/-!
A pass that answers, on a tree. At any time of the pass, also after a fault, a node of the tree differs
from what it was before only in the children that were answered for, and each of these is the answer
(`Transformer.Progress`). The step lemma follows the walk over the children of one node, from place to
place (`Transformer.Site.Walked`), and the run lemma goes over the tree (`Transformer.each_transforms`).
-/

namespace ProgramTree

variable {σ : Type}

/-- Every node of the forest has the answers for its children in their places. -/
def Forest.Mapped (f : Forest) (given : Answers) (a : Arena) : Prop :=
  ∀ p ∈ f.nodes, a.node p.1.node = .ok (p.2.mapChildren given.of)

namespace Transformer

/-- What a pass over the forest has done when it has given the answers `given`. -/
structure Progress (quiet : Prop) (f : Forest) (w : World (Tally σ)) (past past' : List (Moment Reply))
    (given : Answers) (w' : World (Tally σ)) : Prop where
  answers : answers past' = answers past ++ given
  keys : ∀ h ∈ given.keys, h ∈ f.handles
  touched : w.Touched f.ids quiet (f.counted given) w'
  mapped : f.Mapped given w'.arena

/-- The tree of `c` was transformed, and `new` is the answer for `c` itself. -/
def Succeeds (quiet : Prop) (f : Forest) (c : Handle) (w : World (Tally σ))
    (past past' : List (Moment Reply)) (new : NodeId) (w' : World (Tally σ)) : Prop :=
  ∃ given : Answers, Progress quiet f w past past' (given ++ [(c, new)]) w' ∧ c ∉ given.keys ∧
    given.keys ++ [c] = f.postorder ∧ entered past' = entered past ++ f.preorder ∧ f.stubs = []

def Quiet (choose : Handle → NodeId → World (Tally σ) → Answer σ) : Prop :=
  ∀ h kept w, (choose h kept w).fresh = []

/-- Where a fault can come from: a stub of the forest, or the pass itself. -/
def Blamed (choose : Handle → NodeId → World (Tally σ) → Answer σ) (f : Forest) (e : Fault) : Prop :=
  f.stubs ≠ [] ∨ ∃ h kept w, (choose h kept w).result = .error e

theorem Blamed.mono {choose : Handle → NodeId → World (Tally σ) → Answer σ} {f g : Forest} {e : Fault}
    (blamed : Blamed choose f e) (more : f.stubs ⊆ g.stubs) : Blamed choose g e :=
  blamed.imp_left fun some none => some (List.subset_nil.mp (none ▸ more))

def Fails (choose : Handle → NodeId → World (Tally σ) → Answer σ) (f : Forest) (c : Handle)
    (w : World (Tally σ)) (past past' : List (Moment Reply)) (e : Fault) (w' : World (Tally σ)) : Prop :=
  ∃ given : Answers, Progress (Quiet choose) f w past past' given w' ∧ c ∉ given.keys ∧
    Blamed choose f e

/-- A node whose children are about to be walked. -/
structure Site (σ : Type) where
  choose : Handle → NodeId → World (Tally σ) → Answer σ
  handle : Handle
  node : Node
  kids : Forest
  start : World (Tally σ)
  before : List (Moment Reply)

namespace Site

def quiet (s : Site σ) : Prop :=
  Quiet s.choose

structure Fits (s : Site σ) : Prop where
  good : s.start.arena.Shows s.handle s.node
  below : Unfolds s.start.arena ∅ s.node.children s.kids
  distinct : (s.handle.node :: s.kids.ids).Nodup
  steady : s.kids.Steady s.quiet s.start.arena

/-- The walk has come to position `i` of lane `k`: the trees in `gone` are done and those in `left`
are as they were. In lane `k`, `x` places were overwritten and not counted yet. -/
structure Walked (s : Site σ) (gone left : Forest) (given : Answers) (k i x : Nat)
    (past : List (Moment Reply)) (w : World (Tally σ)) : Prop where
  kids : s.kids = gone.append left
  unfolds_gone : Unfolds s.start.arena ∅ (s.node.behind k i) gone
  unfolds_left : Unfolds s.start.arena ∅ (s.node.onward k i) left
  answers : answers past = ProgramTree.answers s.before ++ given
  entered : entered past = ProgramTree.entered s.before ++ gone.preorder
  keys : given.keys = gone.postorder
  stubs : gone.stubs = []
  touched : s.start.Touched (s.handle.node :: gone.ids) s.quiet
    (gone.counted given + given.changes (s.node.settled k)) w
  mapped : gone.Mapped given w.arena
  pending : x = given.changes (s.node.passed k i)

variable {s : Site σ} {gone left : Forest} {given : Answers} {k i x : Nat}
  {past past' : List (Moment Reply)} {w w' : World (Tally σ)}

theorem Fits.walked_start (fits : s.Fits) : s.Walked .nil s.kids [] 0 0 0 s.before s.start where
  kids := rfl
  unfolds_gone := by
    rw [Node.behind, Node.passed_zero]
    exact .nil
  unfolds_left := by
    rw [Node.onward_start]
    exact fits.below
  answers := by simp
  entered := by simp [Forest.preorder]
  keys := rfl
  stubs := rfl
  touched := .of_same rfl rfl
  mapped := by simp [Forest.Mapped, Forest.nodes]
  pending := by rw [Node.passed_zero]; rfl

/-- The walk faces the child `c`: `t` is its tree, `gone` the trees before it and `rest` those after
it. -/
structure Faces (s : Site σ) (gone t rest : Forest) (c : Handle) (k i : Nat) : Prop where
  unfolds_gone : Unfolds s.start.arena ∅ (s.node.behind k i) gone
  unfolds_tree : Unfolds s.start.arena ∅ [c] t
  unfolds_rest : Unfolds s.start.arena ∅ (s.node.onward k (i + 1)) rest
  children : s.node.children = s.node.behind k i ++ c :: s.node.onward k (i + 1)
  gone_tree : gone.ids.Disjoint t.ids
  gone_rest : gone.ids.Disjoint rest.ids
  tree_rest : t.ids.Disjoint rest.ids
  distinct : t.ids.Nodup
  owner : s.handle.node ∉ gone.ids ∧ s.handle.node ∉ t.ids ∧ s.handle.node ∉ rest.ids

variable {t rest : Forest} {c : Handle} {lane : Lane} {id new : NodeId}

theorem Walked.faces (fits : s.Fits) (walked : s.Walked gone left given k i x past w)
    (here : s.node.tag.lanes[k]? = some lane) (there : s.node.place? k i = some (some id)) :
    ∃ t rest, left = t.append rest ∧ s.Faces gone t rest ⟨lane.category, id⟩ k i ∧
      ∀ P : Handle → Forest → Prop, left.Each P → P ⟨lane.category, id⟩ t ∧ rest.Each P := by
  have ahead := Node.onward_some here there
  have unfolds := walked.unfolds_left
  rw [ahead] at unfolds
  obtain ⟨t, rest, rfl, tree, others, each⟩ := unfolds.uncons
  have distinct := fits.distinct
  rw [walked.kids, Forest.ids_append, Forest.ids_append, List.nodup_cons, List.nodup_append',
    List.nodup_append', List.disjoint_append_right, List.mem_append, List.mem_append, not_or,
    not_or] at distinct
  obtain ⟨owner, -, ⟨nodup, -, tree_rest⟩, gone_tree, gone_rest⟩ := distinct
  refine ⟨t, rest, rfl, ?_, each⟩
  exact { unfolds_gone := walked.unfolds_gone, unfolds_tree := tree, unfolds_rest := others,
          children := by rw [s.node.children_eq k i, ahead]
          gone_tree := gone_tree, gone_rest := gone_rest, tree_rest := tree_rest
          distinct := nodup, owner := owner }

/-- The answers given before the child was faced, followed by those of its tree. -/
structure Joins (s : Site σ) (gone t rest : Forest) (given more : Answers) (k : Nat)
    (past : List (Moment Reply)) (w : World (Tally σ)) : Prop where
  answers : answers past = ProgramTree.answers s.before ++ (given ++ more)
  before : ∀ h ∈ gone.preorder, (given ++ more).lookup h = given.lookup h
  inside : ∀ h ∈ t.preorder, (given ++ more).lookup h = more.lookup h
  after : ∀ h ∈ rest.preorder, h ∉ (given ++ more).keys
  touched : s.start.Touched (s.handle.node :: (gone.append t).ids) s.quiet
    ((gone.append t).counted (given ++ more) + given.changes (s.node.settled k)) w
  mapped : (gone.append t).Mapped (given ++ more) w.arena

theorem Walked.joins (walked : s.Walked gone left given k i x past w)
    (faces : s.Faces gone t rest c k i) {more : Answers}
    (progress : Progress s.quiet t w past past' more w') :
    s.Joins gone t rest given more k past' w' := by
  have keys : ∀ h ∈ given.keys, h ∈ gone.handles := by
    intro h mem
    rwa [walked.keys, Forest.mem_postorder] at mem
  have goneChildren := faces.unfolds_gone.children_mem
  have treeChildren := faces.unfolds_tree.children_mem
  have before : ∀ h ∈ gone.preorder, (given ++ more).lookup h = given.lookup h :=
    fun h mem => faces.unfolds_gone.lookup_left faces.unfolds_tree faces.gone_tree progress.keys mem
  have inside : ∀ h ∈ t.preorder, (given ++ more).lookup h = more.lookup h :=
    fun h mem => faces.unfolds_gone.lookup_right faces.unfolds_tree faces.gone_tree keys mem
  refine ⟨?_, before, inside, ?_, ?_, ?_⟩
  · rw [progress.answers, walked.answers, List.append_assoc]
  · intro h mem key
    rw [Answers.mem_keys_append] at key
    rcases key with key | key
    · exact faces.unfolds_rest.not_mem_handles faces.unfolds_gone faces.gone_rest.symm mem (keys h key)
    · exact faces.unfolds_rest.not_mem_handles faces.unfolds_tree faces.tree_rest.symm mem
        (progress.keys h key)
  · have countGone : gone.counted given = gone.counted (given ++ more) :=
      Forest.counted_congr fun p mem c child => (before c (goneChildren p mem c child)).symm
    have countTree : t.counted more = t.counted (given ++ more) :=
      Forest.counted_congr fun p mem c child => (inside c (treeChildren p mem c child)).symm
    have touched := walked.touched.trans progress.touched
    rw [List.cons_append, ← Forest.ids_append] at touched
    rw [Forest.counted_append, ← countGone, ← countTree, Nat.add_right_comm]
    exact touched
  · intro p mem
    rw [Forest.nodes_append, List.mem_append] at mem
    rcases mem with mem | mem
    · have outside : p.1.node ∉ t.ids := fun both => faces.gone_tree (List.mem_map_of_mem mem) both
      rw [progress.touched.frame outside (walked.mapped p mem)]
      exact congrArg _ (Node.mapChildren_answers_congr fun c child =>
        (before c (goneChildren p mem c child)).symm)
    · rw [progress.mapped p mem]
      exact congrArg _ (Node.mapChildren_answers_congr fun c child =>
        (inside c (treeChildren p mem c child)).symm)

theorem Faces.not_mem_behind (faces : s.Faces gone t rest c k i) (inner : c ∈ t.handles) :
    c ∉ s.node.behind k i := fun mem =>
  faces.unfolds_gone.not_mem_handles faces.unfolds_tree faces.gone_tree
    (faces.unfolds_gone.mem_preorder c mem) inner

theorem Faces.not_mem_onward (faces : s.Faces gone t rest c k i) (inner : c ∈ t.handles) :
    c ∉ s.node.onward k (i + 1) := fun mem =>
  faces.unfolds_rest.not_mem_handles faces.unfolds_tree faces.tree_rest.symm
    (faces.unfolds_rest.mem_preorder c mem) inner

theorem Faces.once (faces : s.Faces gone t rest c k i) (inner : c ∈ t.handles) :
    s.node.children.count c ≤ 1 := by
  rw [faces.children, List.count_append, List.count_cons_self,
    List.count_eq_zero_of_not_mem (faces.not_mem_behind inner),
    List.count_eq_zero_of_not_mem (faces.not_mem_onward inner)]

/-- With the answer for `c`, no other child of the node gets another answer than before. -/
theorem Joins.of_child {more : Answers} (joins : s.Joins gone t rest given more k past' w')
    (faces : s.Faces gone t rest c k i) (inner : c ∈ t.handles) (answer : more.lookup c = some new) :
    ∀ h ∈ s.node.children, (given ++ more).of h = Function.update given.of c new h := by
  intro h mem
  rw [faces.children, List.mem_append, List.mem_cons] at mem
  rcases mem with mem | rfl | mem
  · have other : h ≠ c := by
      rintro rfl
      exact faces.not_mem_behind inner mem
    rw [Function.update_of_ne other, Answers.of, Answers.of,
      joins.before h (faces.unfolds_gone.mem_preorder h mem)]
  · rw [Function.update_self, Answers.of,
      joins.inside h (faces.unfolds_tree.mem_preorder h List.mem_cons_self), answer]
    rfl
  · have other : h ≠ c := by
      rintro rfl
      exact faces.not_mem_onward inner mem
    have absent := joins.after h (faces.unfolds_rest.mem_preorder h mem)
    have absent' : h ∉ given.keys := fun key => absent (Answers.mem_keys_append.mpr (.inl key))
    rw [Function.update_of_ne other, Answers.of_not_mem absent, Answers.of_not_mem absent']

theorem Walked.succeed {more : Answers} (walked : s.Walked gone (t.append rest) given k i x past w)
    (here : s.node.tag.lanes[k]? = some lane) (there : s.node.place? k i = some (some id))
    (faces : s.Faces gone t rest ⟨lane.category, id⟩ k i)
    (joins : s.Joins gone t rest given more k past' w') (keys : more.keys = t.postorder)
    (shown : ProgramTree.entered past' = ProgramTree.entered past ++ t.preorder) (stubs : t.stubs = [])
    (inner : ⟨lane.category, id⟩ ∈ t.handles) (answer : more.lookup ⟨lane.category, id⟩ = some new) :
    s.Walked (gone.append t) rest (given ++ more) k (i + 1) (x + if new = id then 0 else 1)
      past' w' where
  kids := by rw [walked.kids, Forest.append_assoc]
  unfolds_gone := by
    rw [Node.behind, Node.passed_some here there, ← List.append_assoc]
    exact faces.unfolds_gone.append faces.unfolds_tree
  unfolds_left := faces.unfolds_rest
  answers := joins.answers
  entered := by rw [shown, walked.entered, Forest.preorder_append, List.append_assoc]
  keys := by
    rw [Answers.keys_append, Forest.postorder_append, walked.keys, keys]
  stubs := by rw [Forest.stubs_append, walked.stubs, stubs]; rfl
  touched := by
    have settled : (given ++ more).changes (s.node.settled k) = given.changes (s.node.settled k) :=
      Answers.changes_congr fun h mem =>
        joins.before h (faces.unfolds_gone.mem_preorder h (List.mem_append_left _ mem))
    rw [settled]
    exact joins.touched
  mapped := joins.mapped
  pending := by
    have passed : (given ++ more).changes (s.node.passed k i) = given.changes (s.node.passed k i) :=
      Answers.changes_congr fun h mem =>
        joins.before h (faces.unfolds_gone.mem_preorder h (List.mem_append_right _ mem))
    have child := joins.of_child faces inner answer ⟨lane.category, id⟩ (by
      rw [faces.children]
      exact List.mem_append_right _ List.mem_cons_self)
    rw [Function.update_self] at child
    rw [Node.passed_some here there, Answers.changes_append, passed, ← walked.pending]
    by_cases same : new = id
    · simp [Answers.changes, child, same]
    · simp [Answers.changes, child, same]

theorem Walked.skip (walked : s.Walked gone left given k i x past w)
    (there : s.node.place? k i = some none) : s.Walked gone left given k (i + 1) x past w :=
  { walked with
    unfolds_gone := by
      rw [Node.behind, Node.passed_none there]
      exact walked.unfolds_gone
    unfolds_left := by
      rw [← Node.onward_none there]
      exact walked.unfolds_left
    pending := by
      rw [Node.passed_none there]
      exact walked.pending }

theorem Walked.next (walked : s.Walked gone left given k i x past w)
    (here : s.node.tag.lanes[k]? = some lane) (there : s.node.place? k i = none) :
    s.Walked gone left given (k + 1) 0 0 past (w.bump x) :=
  { walked with
    unfolds_gone := by
      rw [Node.behind, Node.settled_succ here there, Node.passed_zero, List.append_nil]
      exact walked.unfolds_gone
    unfolds_left := by
      rw [← Node.onward_end there]
      exact walked.unfolds_left
    touched := by
      rw [Node.settled_succ here there, Node.behind, Answers.changes_append, ← walked.pending,
        ← Nat.add_assoc]
      exact walked.touched.bump x
    pending := by
      rw [Node.passed_zero]
      rfl }

theorem Walked.put (walked : s.Walked gone left given k i x past w) {n n' : Node}
    (outside : s.handle.node ∉ gone.ids) (stored : w.arena.node s.handle.node = .ok n)
    (tag : n'.tag = n.tag) :
    s.Walked gone left given k i x past
      { w with arena := w.arena.put n'.tag s.handle.node n'.record } :=
  { walked with
    touched := walked.touched.put List.mem_cons_self stored tag
    mapped := fun p mem => by
      have other : s.handle.node ≠ p.1.node := fun same => outside (same ▸ List.mem_map_of_mem mem)
      exact (Arena.node_put_ne other).trans (walked.mapped p mem) }

theorem Walked.stubs_subset (walked : s.Walked gone (t.append rest) given k i x past w) :
    t.stubs ⊆ s.kids.stubs := by
  rw [walked.kids, Forest.stubs_append, Forest.stubs_append]
  exact List.Subset.trans (List.subset_append_left _ _) (List.subset_append_right _ _)

theorem Walked.handles_of_keys (walked : s.Walked gone left given k i x past w) {h : Handle}
    (key : h ∈ given.keys) : h ∈ gone.handles := by
  rwa [walked.keys, Forest.mem_postorder] at key

theorem Walked.behind_answered (walked : s.Walked gone left given k i x past w) {h : Handle}
    (mem : h ∈ s.node.behind k i) : h ∈ given.keys := by
  rw [walked.keys, Forest.mem_postorder]
  have inside := (gone.mem_preorder_iff h).mp (walked.unfolds_gone.mem_preorder h mem)
  rw [walked.stubs] at inside
  exact inside.resolve_right (List.not_mem_nil)

def tree (s : Site σ) : Forest :=
  .node s.handle s.node s.kids .nil

theorem nodes_tree (s : Site σ) : s.tree.nodes = (s.handle, s.node) :: s.kids.nodes := by
  simp [tree, Forest.nodes]

theorem handles_tree (s : Site σ) : s.tree.handles = s.handle :: s.kids.handles := by
  rw [Forest.handles, nodes_tree]
  rfl

theorem ids_tree (s : Site σ) : s.tree.ids = s.handle.node :: s.kids.ids := by
  rw [Forest.ids, nodes_tree]
  rfl

theorem counted_tree (s : Site σ) (given : Answers) :
    s.tree.counted given = s.node.counted given + s.kids.counted given := by
  rw [Forest.counted, nodes_tree]
  rfl

section Failing

variable {more : Answers}

/-- When the pass fails below a child, the other children keep the answers they had before. -/
theorem Joins.lookup_child (joins : s.Joins gone t rest given more k past' w')
    (faces : s.Faces gone t rest c k i) (unanswered : c ∉ more.keys) :
    ∀ h ∈ s.node.children, (given ++ more).lookup h = given.lookup h := by
  intro h mem
  rw [faces.children, List.mem_append, List.mem_cons] at mem
  rcases mem with mem | rfl | mem
  · exact joins.before h (faces.unfolds_gone.mem_preorder h mem)
  · exact Answers.lookup_append_left unanswered
  · have absent := joins.after h (faces.unfolds_rest.mem_preorder h mem)
    rw [Answers.mem_keys_append, not_or] at absent
    exact Answers.lookup_append_left absent.2

/-- The lane in which the pass failed is not counted. -/
theorem Walked.counted_of_fail (walked : s.Walked gone (t.append rest) given k i x past w)
    (here : s.node.tag.lanes[k]? = some lane) (there : s.node.place? k i = some (some id))
    (faces : s.Faces gone t rest ⟨lane.category, id⟩ k i)
    (joins : s.Joins gone t rest given more k past' w')
    (unanswered : (⟨lane.category, id⟩ : Handle) ∉ more.keys) :
    s.node.counted (given ++ more) = given.changes (s.node.settled k) := by
  have behind : ∀ h ∈ s.node.settled k, (given ++ more).lookup h = given.lookup h :=
    fun h mem => joins.before h (faces.unfolds_gone.mem_preorder h (List.mem_append_left _ mem))
  have child : (⟨lane.category, id⟩ : Handle) ∉ (given ++ more).keys := by
    apply Answers.not_mem_of_lookup
    rw [joins.inside _ (faces.unfolds_tree.mem_preorder _ List.mem_cons_self)]
    exact Answers.lookup_of_not_mem unanswered
  have onward : ∀ h ∈ s.node.onward k (i + 1), h ∉ (given ++ more).keys :=
    fun h mem => joins.after h (faces.unfolds_rest.mem_preorder h mem)
  rw [Node.counted_of_cut_short here there _ child onward]
  · exact Answers.changes_congr behind
  · intro h mem
    rw [behind h mem]
    exact Answers.isSome_lookup (walked.behind_answered (List.mem_append_left _ mem))

theorem Joins.mapped_rest (joins : s.Joins gone t rest given more k past' w')
    (faces : s.Faces gone t rest c k i) : rest.Mapped (given ++ more) w'.arena := by
  intro p mem
  have outside : p.1.node ∉ s.handle.node :: (gone.append t).ids := by
    have id := List.mem_map_of_mem (f := fun p => p.1.node) mem
    rw [Forest.ids_append, List.mem_cons, List.mem_append]
    rintro (same | before | inside)
    · exact faces.owner.2.2 (same ▸ id)
    · exact faces.gone_rest before id
    · exact faces.tree_rest inside id
  rw [joins.touched.frame outside (faces.unfolds_rest.shows_of_mem p mem).1, Node.mapChildren_id]
  intro c child
  exact Answers.of_not_mem (joins.after c (faces.unfolds_rest.children_mem p mem c child))

/-- The pass fails in the tree of the child that it faces. -/
theorem Walked.fail (walked : s.Walked gone (t.append rest) given k i x past w)
    (here : s.node.tag.lanes[k]? = some lane) (there : s.node.place? k i = some (some id))
    (faces : s.Faces gone t rest ⟨lane.category, id⟩ k i)
    (joins : s.Joins gone t rest given more k past' w') (keys : ∀ h ∈ more.keys, h ∈ t.handles)
    (unanswered : (⟨lane.category, id⟩ : Handle) ∉ more.keys)
    (owner : w'.arena.node s.handle.node = .ok (s.node.mapChildren given.of)) :
    Progress s.quiet s.tree s.start s.before past' (given ++ more) w' := by
  have kids : s.kids = (gone.append t).append rest := by rw [walked.kids, Forest.append_assoc]
  refine ⟨joins.answers, ?_, ?_, ?_⟩
  · intro h key
    rw [Answers.mem_keys_append] at key
    rw [handles_tree, kids, Forest.handles_append, Forest.handles_append]
    rcases key with key | key
    · exact .tail _ (List.mem_append_left _ (List.mem_append_left _ (walked.handles_of_keys key)))
    · exact .tail _ (List.mem_append_left _ (List.mem_append_right _ (keys h key)))
  · -- Nothing in `rest` was answered for, so nothing of it is counted.
    have none : rest.counted (given ++ more) = 0 := Forest.counted_eq_zero fun p mem c child =>
      joins.after c (faces.unfolds_rest.children_mem p mem c child)
    rw [counted_tree, walked.counted_of_fail here there faces joins unanswered, kids,
      Forest.counted_append, none, Nat.add_zero, Nat.add_comm, ids_tree, kids]
    exact joins.touched.mono (List.cons_subset_cons _ (by simp [Forest.ids_append _ rest]))
  · intro p mem
    rw [nodes_tree, kids, Forest.nodes_append, List.mem_cons, List.mem_append] at mem
    rcases mem with rfl | mem | mem
    · rw [owner, ← Node.mapChildren_answers_congr (joins.lookup_child faces unanswered)]
    · exact joins.mapped p mem
    · exact joins.mapped_rest faces p mem

end Failing

theorem Walked.not_answered {more : Answers} (walked : s.Walked gone left given k i x past w)
    (owner : s.handle.node ∉ gone.ids ∧ s.handle.node ∉ t.ids)
    (keys : ∀ h ∈ more.keys, h ∈ t.handles) : s.handle ∉ (given ++ more).keys := by
  intro key
  rw [Answers.mem_keys_append] at key
  rcases key with key | key
  · exact owner.1 (Forest.mem_ids (walked.handles_of_keys key))
  · exact owner.2 (Forest.mem_ids (keys _ key))

/-- At the end of the walk all trees are done. -/
theorem Walked.complete (walked : s.Walked gone left given s.node.tag.lanes.length 0 x past w) :
    s.Walked s.kids .nil given s.node.tag.lanes.length 0 x past w := by
  have unfolds := walked.unfolds_left
  rw [Node.onward_start, ← Node.length_rows, List.drop_length] at unfolds
  cases unfolds
  have all : s.kids = gone := walked.kids.trans gone.append_nil
  rwa [all]

theorem Walked.finish {more : Answers} (fits : s.Fits)
    (walked : s.Walked s.kids .nil given s.node.tag.lanes.length 0 x past w)
    (owner : w.arena.node s.handle.node = .ok (s.node.mapChildren given.of))
    (shown : ProgramTree.answers past' = ProgramTree.answers past ++ more)
    (keys : ∀ h ∈ more.keys, h = s.handle) :
    Progress s.quiet s.tree s.start s.before past' (given ++ more) w := by
  have below : ∀ c ∈ s.kids.preorder, given.lookup c = (given ++ more).lookup c := by
    intro c mem
    refine (Answers.lookup_append_left fun key => ?_).symm
    obtain rfl := keys c key
    exact (List.nodup_cons.mp fits.distinct).1
      (List.mem_map_of_mem (fits.below.mem_nodes mem fits.good))
  have children : ∀ c ∈ s.node.children, given.lookup c = (given ++ more).lookup c :=
    fun c mem => below c (fits.below.mem_preorder c mem)
  have kids : ∀ p ∈ s.kids.nodes, ∀ c ∈ p.2.children, given.lookup c = (given ++ more).lookup c :=
    fun p mem c child => below c (fits.below.children_mem p mem c child)
  refine ⟨?_, ?_, ?_, ?_⟩
  · rw [shown, walked.answers, List.append_assoc]
  · intro h key
    rw [Answers.mem_keys_append] at key
    rw [handles_tree]
    rcases key with key | key
    · exact .tail _ (walked.handles_of_keys key)
    · rw [keys h key]
      exact .head _
  · have own : s.node.counted given = given.changes s.node.children := by
      refine Node.counted_of_answered fun c mem => Answers.isSome_lookup (walked.behind_answered ?_)
      rwa [Node.behind, Node.settled_all, Node.passed_zero, List.append_nil]
    rw [counted_tree, ← Node.counted_congr children, ← Forest.counted_congr kids, own, Nat.add_comm,
      ids_tree, ← Node.settled_all]
    exact walked.touched
  · intro p mem
    rw [nodes_tree, List.mem_cons] at mem
    rcases mem with rfl | mem
    · exact owner.trans (congrArg _ (Node.mapChildren_answers_congr children))
    · exact (walked.mapped p mem).trans (congrArg _ (Node.mapChildren_answers_congr (kids p mem)))

theorem Fits.disjoint (fits : s.Fits) (walked : s.Walked gone left given k i x past w) :
    gone.ids.Disjoint left.ids := by
  have distinct := (List.nodup_cons.mp fits.distinct).2
  rw [walked.kids, Forest.ids_append] at distinct
  exact List.disjoint_of_nodup_append distinct

theorem Walked.onward_unanswered (fits : s.Fits) (walked : s.Walked gone left given k i x past w)
    {h : Handle} (mem : h ∈ s.node.onward k i) : h ∉ given.keys := fun key =>
  walked.unfolds_left.not_mem_handles walked.unfolds_gone (fits.disjoint walked).symm
    (walked.unfolds_left.mem_preorder h mem) (walked.handles_of_keys key)

theorem Walked.reads (fits : s.Fits) (walked : s.Walked gone left given k i x past w)
    (owner : w.arena.node s.handle.node = .ok (s.node.mapChildren given.of)) :
    World.place? s.node.tag s.handle.node k i w = .ok (s.node.place? k i) := by
  refine (World.place?_of_node owner k i).trans (congrArg _ ?_)
  cases here : s.node.tag.lanes[k]? with
  | none =>
    have here' : (s.node.mapChildren given.of).tag.lanes[k]? = none := here
    rw [Node.place?_of_no_lane here, Node.place?_of_no_lane here']
  | some lane =>
    rw [Node.place?_mapChildren given.of here]
    cases there : s.node.place? k i with
    | none => rfl
    | some place =>
      cases place with
      | none => rfl
      | some id =>
        have ahead := Node.mem_onward here there
        exact congrArg (some ∘ some) (Answers.of_not_mem (walked.onward_unanswered fits ahead))

end Site

section Answering

variable {choose : Handle → NodeId → World (Tally σ) → Answer σ}

/-- Wherever the tree `f` of `c` is found in an arena, entering `c` comes to an end there, and
succeeds or fails as described. -/
def Transforms (choose : Handle → NodeId → World (Tally σ) → Answer σ) (c : Handle) (f : Forest) : Prop :=
  ∀ past w, Unfolds w.arena ∅ [c] f → f.ids.Nodup → f.Steady (Quiet choose) w.arena →
    Ends (answering choose).body past (Script.perform (Sum.inl (Call.enter c)) w)
      (fun past' new w' => Succeeds (Quiet choose) f c w past past' new w')
      (fun past' e w' => Fails choose f c w past past' e w')

namespace Site

variable {s : Site σ} {k i x : Nat} {past : List (Moment Reply)} {w : World (Tally σ)}

/-- The invariant of a walk, with what the node itself holds. -/
def Under (s : Site σ) (k i x : Nat) (past : List (Moment Reply)) (w : World (Tally σ)) : Prop :=
  ∃ gone left given, s.Walked gone left given k i x past w ∧ left.Each (Transforms s.choose) ∧
    w.arena.node s.handle.node = .ok (s.node.mapChildren given.of)

theorem Fits.under_of_succeeds (fits : s.Fits) {gone t rest : Forest} {given : Answers} {lane : Lane}
    {id new : NodeId} {past' : List (Moment Reply)} {w' : World (Tally σ)}
    (walked : s.Walked gone (t.append rest) given k i x past w) (each : rest.Each (Transforms s.choose))
    (owner : w.arena.node s.handle.node = .ok (s.node.mapChildren given.of))
    (here : s.node.tag.lanes[k]? = some lane) (there : s.node.place? k i = some (some id))
    (faces : s.Faces gone t rest ⟨lane.category, id⟩ k i)
    (succeeds : Succeeds s.quiet t ⟨lane.category, id⟩ w past past' new w') :
    if new = id then s.Under k (i + 1) x past' w'
    else ∃ w'', World.fill s.node.tag s.handle.node k i new w' = (.ok true, w'') ∧
      s.Under k (i + 1) (x + 1) past' w'' := by
  obtain ⟨answered, progress, absent, keys, shown, stubs⟩ := succeeds
  have joins := walked.joins faces progress
  have inner : (⟨lane.category, id⟩ : Handle) ∈ t.handles := by
    apply progress.keys
    exact Answers.mem_keys_append.mpr (.inr List.mem_cons_self)
  have answer : List.lookup (⟨lane.category, id⟩ : Handle)
      (answered ++ [(⟨lane.category, id⟩, new)]) = some new :=
    (Answers.lookup_append_right absent).trans List.lookup_cons_self
  have walked' := walked.succeed here there faces joins ((Answers.keys_append ..).trans keys) shown
    stubs inner answer
  have stored := progress.touched.frame faces.owner.2.1 owner
  have answers := Node.mapChildren_congr (joins.of_child faces inner answer)
  -- The place is written only when the answer is another node. The child occurs in no other place, so
  -- that writing the one place is giving the child its answer.
  split
  next same =>
    rw [if_pos same, Nat.add_zero] at walked'
    refine ⟨_, _, _, walked', each, stored.trans (congrArg _ ?_)⟩
    have ahead := Node.mem_onward here there
    have kept : given.of ⟨lane.category, id⟩ = new :=
      (Answers.of_not_mem (walked.onward_unanswered fits ahead)).trans same.symm
    rw [answers, ← kept, Function.update_eq_self]
  next other =>
    rw [if_neg other] at walked'
    have occupied : (s.node.mapChildren given.of).place? k i =
        some (some (given.of ⟨lane.category, id⟩)) := by
      rw [Node.place?_mapChildren given.of here, there]
      rfl
    have filled : (s.node.mapChildren given.of).fill k i new = s.node.mapChildren _ :=
      (Node.fill_mapChildren given.of here there (faces.once inner) new).trans answers.symm
    have outside : s.handle.node ∉ (gone.append t).ids := by
      rw [Forest.ids_append, List.mem_append, not_or]
      exact ⟨faces.owner.1, faces.owner.2.1⟩
    have written := walked'.put outside stored
      (show ((s.node.mapChildren given.of).fill k i new).tag = _ from rfl)
    refine ⟨_, World.fill_of_node stored occupied new, _, _, _, written, each, ?_⟩
    exact (Arena.node_put_self stored).trans (congrArg _ filled)

theorem Fits.enter_ends (fits : s.Fits) {lane : Lane} {id : NodeId}
    (here : s.node.tag.lanes[k]? = some lane) (there : s.node.place? k i = some (some id))
    (under : s.Under k i x past w) :
    Ends (answering s.choose).body past
      (Script.perform (Sum.inl (Call.enter ⟨lane.category, id⟩)) w)
      (fun past new w =>
        if new = id then s.Under k (i + 1) x past w
        else ∃ w', World.fill s.node.tag s.handle.node k i new w = (.ok true, w') ∧
          s.Under k (i + 1) (x + 1) past w')
      (fun past e w => Fails s.choose s.tree s.handle s.start s.before past e w) := by
  obtain ⟨gone, left, given, walked, each, owner⟩ := under
  obtain ⟨t, rest, rfl, faces, split⟩ := walked.faces fits here there
  obtain ⟨transforms, each⟩ := split _ each
  have steady : t.Steady s.quiet s.start.arena :=
    fits.steady.imp_right fun stored h mem => stored h (walked.stubs_subset mem)
  have apart : t.ids.Disjoint (s.handle.node :: gone.ids) :=
    List.disjoint_cons_right.mpr ⟨faces.owner.2.1, faces.gone_tree.symm⟩
  have unfolds := walked.touched.unfolds faces.unfolds_tree apart steady
  refine (transforms past w unfolds faces.distinct (walked.touched.steady steady)).mono ?_ ?_
  · intro past' new w' succeeds
    exact fits.under_of_succeeds walked each owner here there faces succeeds
  · rintro past' e w' ⟨more, progress, absent, blamed⟩
    have joins := walked.joins faces progress
    have stored := progress.touched.frame faces.owner.2.1 owner
    exact ⟨given ++ more,
      walked.fail here there faces joins progress.keys absent stored,
      walked.not_answered ⟨faces.owner.1, faces.owner.2.1⟩ progress.keys,
      blamed.mono (List.Subset.trans walked.stubs_subset (List.subset_append_left _ _))⟩

theorem Fits.walk_ends (fits : s.Fits) (each : s.kids.Each (Transforms s.choose)) :
    Ends (answering s.choose).body s.before
      ((answering s.choose).body (.inl (.walk s.node.tag s.handle.node)) s.start)
      (fun past _ w => s.Under s.node.tag.lanes.length 0 0 past w)
      (fun past e w => Fails s.choose s.tree s.handle s.start s.before past e w) := by
  have rule : (answering s.choose).Walkable s.handle.node s.node s.Under
      (fun past e w => Fails s.choose s.tree s.handle s.start s.before past e w) := by
    refine ⟨?_, fits.enter_ends, ?_, ?_⟩
    · rintro k i x past w ⟨gone, left, given, walked, -, owner⟩
      exact walked.reads fits owner
    · rintro k i x past w there ⟨gone, left, given, walked, each, owner⟩
      exact ⟨gone, left, given, walked.skip there, each, owner⟩
    · rintro k i x past w lane here there ⟨gone, left, given, walked, each, owner⟩
      exact ⟨gone, left, given, walked.next here there, each, owner⟩
  have owner : s.start.arena.node s.handle.node = .ok (s.node.mapChildren (Answers.of [])) := by
    rw [Node.mapChildren_id fun c _ => Answers.of_not_mem List.not_mem_nil]
    exact fits.good.1
  exact rule.walk_ends ⟨.nil, s.kids, [], fits.walked_start, each, owner⟩

end Site

theorem body_enter (h : Handle) :
    (answering choose).body (.inl (.enter h)) =
      (Script.perform (Sum.inl (Call.dispatch h)) >>= fun kept =>
        Script.step fun w => ((choose h kept w).result, w.answered (choose h kept w))) :=
  Script.embed_bind ..

theorem body_method (t : Tag) (id : NodeId) :
    (((answering choose).method t id).embed : Task σ NodeId) =
      (Script.perform (Sum.inl (Call.walk t id)) >>= fun _ => pure id) :=
  Script.embed_bind ..

/-- A stub is entered and dispatched, and nothing more. -/
theorem stub_transforms (h : Handle) : Transforms choose h (.stub h .nil) := by
  intro past w unfolds _ _
  have bad := unfolds.not_shows_of_mem_stubs h List.mem_cons_self
  obtain ⟨e, failed⟩ := World.classify_of_stub bad
  have classified : World.classify h w = (.error e, (World.classify h w).2) := Prod.ext failed rfl
  have dispatched : Ends (answering choose).body (past ++ [.began (.enter h)])
      (Script.perform (Sum.inl (Call.dispatch h)) w) (fun _ _ _ => False)
      (fun past' _ w' => answers past' = answers past ∧ w' = (World.classify h w).2) := by
    refine .call ?_
    rw [body, Script.step_bind_error classified]
    refine .error ⟨?_, rfl⟩
    rw [answers_error, answers_began, answers_began]
  refine .call ?_
  rw [body_enter]
  refine .bind (dispatched.mono (fun _ _ _ no => no) fun past' e w' holds => ?_)
    (fun _ _ _ no => no.elim)
  obtain ⟨none, rfl⟩ := holds
  refine ⟨[], ⟨?_, by simp [Answers.keys], ?_, by simp [Forest.Mapped, Forest.nodes]⟩, List.not_mem_nil,
    .inl (List.cons_ne_nil _ _)⟩
  · rw [answers_error, none, List.append_nil]
  · exact .of_same (World.classify_frame h w).1 (World.classify_frame h w).2

theorem Progress.answered {quiet : Prop} {f : Forest} {w w' : World (Tally σ)}
    {past past' : List (Moment Reply)} {given : Answers} (progress : Progress quiet f w past past' given w')
    {x : Answer σ} (still : quiet → x.fresh = []) :
    Progress quiet f w past past' given (w'.answered x) :=
  { progress with
    touched := progress.touched.answered still
    mapped := fun p mem => Arena.node_allocAll_of_ok _ (progress.mapped p mem) }

theorem Progress.since {quiet : Prop} {f : Forest} {w w' : World (Tally σ)}
    {first past past' : List (Moment Reply)} {given : Answers}
    (progress : Progress quiet f w past past' given w')
    (same : ProgramTree.answers past = ProgramTree.answers first) :
    Progress quiet f w first past' given w' :=
  { progress with answers := same ▸ progress.answers }

theorem Succeeds.answered {quiet : Prop} {f : Forest} {c : Handle} {w w' : World (Tally σ)}
    {past past' : List (Moment Reply)} {new : NodeId} (succeeds : Succeeds quiet f c w past past' new w')
    {x : Answer σ} (still : quiet → x.fresh = []) :
    Succeeds quiet f c w past past' new (w'.answered x) := by
  obtain ⟨given, progress, rest⟩ := succeeds
  exact ⟨given, progress.answered still, rest⟩

theorem Fails.later {f : Forest} {c : Handle} {w w' : World (Tally σ)} {e : Fault}
    {past past' past'' : List (Moment Reply)} (fails : Fails choose f c w past past' e w')
    (same : answers past'' = answers past') : Fails choose f c w past past'' e w' := by
  obtain ⟨given, progress, absent⟩ := fails
  exact ⟨given, { progress with answers := same.trans progress.answers }, absent⟩

namespace Site

variable {s : Site σ} {past past' : List (Moment Reply)} {w : World (Tally σ)}

theorem Under.later {k i x : Nat} (under : s.Under k i x past w) (same : answers past' = answers past)
    (shown : entered past' = entered past) : s.Under k i x past' w := by
  obtain ⟨gone, left, given, walked, each, owner⟩ := under
  exact ⟨gone, left, given,
    { walked with answers := same.trans walked.answers, entered := shown.trans walked.entered },
    each, owner⟩

theorem Under.complete (under : s.Under s.node.tag.lanes.length 0 0 past w) (fits : s.Fits) :
    ∃ given, s.Walked s.kids .nil given s.node.tag.lanes.length 0 0 past w ∧ s.handle ∉ given.keys ∧
      w.arena.node s.handle.node = .ok (s.node.mapChildren given.of) := by
  obtain ⟨gone, left, given, walked, -, owner⟩ := under
  have walked := walked.complete
  refine ⟨given, walked, fun key => ?_, owner⟩
  exact (List.nodup_cons.mp fits.distinct).1 (Forest.mem_ids (walked.handles_of_keys key))

theorem Under.succeeds (under : s.Under s.node.tag.lanes.length 0 0 past' w) (fits : s.Fits)
    (same : answers s.before = answers past) (shown : entered s.before = entered past ++ [s.handle])
    (new : NodeId) :
    Succeeds s.quiet s.tree s.handle s.start past (past' ++ [.ended (.enter s.handle) (.ok new)]) new w := by
  obtain ⟨given, walked, absent, owner⟩ := under.complete fits
  have progress := walked.finish fits owner (answers_entered past' s.handle new) (by simp [Answers.keys])
  refine ⟨given, progress.since same, absent, ?_, ?_, ?_⟩
  · rw [walked.keys]
    rfl
  · rw [entered_ended, walked.entered, shown, List.append_assoc]
    exact congrArg _ (congrArg _ (List.append_nil _).symm)
  · exact (List.append_nil _).trans walked.stubs

theorem Fits.dispatch_ends (fits : s.Fits) (each : s.kids.Each (Transforms s.choose))
    (before : s.before = past ++ [.began (.walk s.node.tag s.handle.node)]) :
    Ends (answering s.choose).body past ((answering s.choose).body (.inl (.dispatch s.handle)) s.start)
      (fun past _ w => s.Under s.node.tag.lanes.length 0 0 past w)
      (fun past e w => Fails s.choose s.tree s.handle s.start s.before past e w) := by
  rw [body, Script.step_bind (World.classify_of_shows fits.good), body_method]
  have walked := fits.walk_ends each
  rw [before] at walked ⊢
  refine .bind (.call (walked.mono (fun past' _ w' under => ?_) (fun past' e w' fails => ?_)))
    fun past' _ w' under => .ok under
  · exact under.later (answers_walked ..) (entered_ended ..)
  · exact fails.later (answers_walked ..)

/-- A node is entered, dispatched and walked, and then answered for. -/
theorem Fits.transforms (fits : s.Fits) (each : s.kids.Each (Transforms s.choose))
    (before : s.before = past ++ [.began (.enter s.handle)] ++ [.began (.dispatch s.handle)] ++
      [.began (.walk s.node.tag s.handle.node)]) :
    Ends (answering s.choose).body past (Script.perform (Sum.inl (Call.enter s.handle)) s.start)
      (fun past' new w' => Succeeds s.quiet s.tree s.handle s.start past past' new w')
      (fun past' e w' => Fails s.choose s.tree s.handle s.start past past' e w') := by
  have answersBefore : answers s.before = answers past := by
    rw [before, answers_began, answers_began, answers_began]
  have enteredBefore : entered s.before = entered past ++ [s.handle] := by
    rw [before, entered_walk, entered_dispatch, entered_enter]
  have dispatched : Ends (answering s.choose).body (past ++ [.began (.enter s.handle)])
      (Script.perform (Sum.inl (Call.dispatch s.handle)) s.start)
      (fun past' _ w' => s.Under s.node.tag.lanes.length 0 0 past' w')
      (fun past' e w' => Fails s.choose s.tree s.handle s.start past
        (past' ++ [.ended (.enter s.handle) (.error e)]) e w') := by
    refine .call ((fits.dispatch_ends each before).mono (fun past' _ w' under => ?_)
      (fun past' e w' fails => ?_))
    · exact under.later (answers_dispatched ..) (entered_ended ..)
    · obtain ⟨given, progress, absent⟩ := fails
      have fails : Fails s.choose s.tree s.handle s.start past past' e w' :=
        ⟨given, progress.since answersBefore, absent⟩
      exact fails.later (by rw [answers_error, answers_dispatched])
  refine .call ?_
  rw [body_enter]
  refine .bind dispatched fun past' kept w' under => ?_
  -- The children are done, and the pass answers for the node itself.
  change Ends _ _ (.finish (s.choose s.handle kept w').result (w'.answered (s.choose s.handle kept w')))
    _ _
  cases result : (s.choose s.handle kept w').result with
  | ok new =>
    exact .ok ((under.succeeds fits answersBefore enteredBefore new).answered fun still => still ..)
  | error e =>
    obtain ⟨given, walked, absent, owner⟩ := under.complete fits
    have progress := walked.finish fits owner ((answers_error past' (.enter s.handle) e).trans
      (List.append_nil _).symm) (by simp [Answers.keys])
    rw [List.append_nil] at progress
    exact .error ⟨given, (progress.since answersBefore).answered fun still => still .., absent,
      .inr ⟨_, _, _, result⟩⟩

end Site

theorem node_transforms (h : Handle) (n : Node) (kids : Forest) (each : kids.Each (Transforms choose)) :
    Transforms choose h (.node h n kids .nil) := by
  intro past w unfolds distinct steady
  cases unfolds with
  | cut _ tag _ => simp at tag
  | node good _ below _ =>
    let s : Site σ := ⟨choose, h, n, kids, w,
      past ++ [.began (.enter h)] ++ [.began (.dispatch h)] ++ [.began (.walk n.tag h.node)]⟩
    have fits : s.Fits := by
      refine ⟨good, below, s.ids_tree ▸ distinct, steady.imp_right fun stored c mem => stored c ?_⟩
      exact List.mem_append_left _ mem
    exact fits.transforms each rfl

/-- The run lemma: every tree is transformed. -/
theorem each_transforms (f : Forest) : f.Each (Transforms choose) := by
  induction f with
  | nil => exact trivial
  | stub h rest ih => exact ⟨stub_transforms h, ih⟩
  | node h n kids rest ihKids ihRest => exact ⟨node_transforms h n kids ihKids, ihRest⟩

end Answering

end Transformer

end ProgramTree
