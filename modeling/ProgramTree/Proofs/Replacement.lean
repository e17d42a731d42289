import ProgramTree.Proofs.Changes

/-!
A whole transformation of a tree by a pass that answers. A pass that never fails and meets no bad handle
enters the tree as it was, puts every answer in the place of the handle it was given for, and counts
the slots that changed (`Transformer.answering_transforms_tree`). When a pass fails, its count has missed
the slots that changed in a sequence that was cut short (`Transformer.answering_failed_count`).
-/

namespace ProgramTree

theorem Answers.of_mem {given : Answers} (distinct : given.keys.Nodup) {p : Handle × NodeId}
    (mem : p ∈ given) : given.of p.1 = p.2 := by
  obtain ⟨before, after, rfl⟩ := List.append_of_mem mem
  have absent : p.1 ∉ Answers.keys before := by
    rw [Answers.keys_append] at distinct
    exact fun early => List.disjoint_of_nodup_append distinct early List.mem_cons_self
  rw [Answers.of, Answers.lookup_append_right absent, List.lookup_cons_self]
  rfl

theorem Answers.eq_map_keys {given : Answers} (distinct : given.keys.Nodup) :
    given = given.keys.map fun h => (h, given.of h) := by
  rw [Answers.keys, List.map_map]
  refine (List.map_id given).symm.trans (List.map_congr_left fun p mem => ?_)
  exact Prod.ext rfl (Answers.of_mem distinct mem).symm

namespace Transformer

variable {σ : Type} {choose : Handle → NodeId → World (Tally σ) → Answer σ}

/-- What a whole transformation shows. -/
def account (r : Transformer σ) (steps : Nat) (root : NodeId) (w : World (Tally σ)) :
    List (Moment Reply) :=
  r.history steps (.enter ⟨.module, root⟩) (w.note (.started .transform root))

theorem toNat_growth {before after : UInt64} (le : before.toNat ≤ after.toNat) :
    (growth before after).toNat = after.toNat - before.toNat := by
  have le : before ≤ after := UInt64.le_iff_toNat_le.mpr le
  rw [growth, if_pos le, UInt64.toNat_sub_of_le _ _ le]

theorem answering_ends (choose : Handle → NodeId → World (Tally σ) → Answer σ) {root : Handle}
    {w : World (Tally σ)} {tree : Forest} (unfolds : Unfolds w.arena ∅ [root] tree)
    (distinct : tree.ids.Nodup) (steady : tree.Steady (Quiet choose) w.arena) :
    Ends (answering choose).body [] (Script.perform (Sum.inl (Call.enter root)) w)
      (fun past new w' => Succeeds (Quiet choose) tree root w [] past new w')
      (fun past e w' => Fails choose tree root w [] past e w') := by
  obtain ⟨t, rest, rfl, only, none, each⟩ := unfolds.uncons
  cases none
  have transforms := (each (Transforms choose) (each_transforms _)).1
  rw [Forest.append_nil] at distinct steady ⊢
  exact transforms [] w only distinct steady

theorem answering_succeeds {root : Handle} {w : World (Tally σ)} {tree : Forest}
    (unfolds : Unfolds w.arena ∅ [root] tree) (distinct : tree.ids.Nodup) (none : tree.stubs = [])
    (answered : ∀ h kept w, ∃ id, (choose h kept w).result = .ok id) :
    ∃ enough past new w',
      (∀ steps, enough ≤ steps → (answering choose).run steps (.enter root) w = some (.ok new, w') ∧
        (answering choose).history steps (.enter root) w = past) ∧
      Succeeds (Quiet choose) tree root w [] past new w' := by
  have steady : tree.Steady (Quiet choose) w.arena := .inr (by simp [none])
  obtain ⟨enough, past, r, w', ends, holds⟩ := (answering_ends choose unfolds distinct steady).run
  cases r with
  | ok new => exact ⟨enough, past, new, w', ends, holds⟩
  | error e =>
    obtain ⟨_, -, -, some | ⟨h, kept, w, failed⟩⟩ := holds
    · exact absurd none some
    · obtain ⟨id, ok⟩ := answered h kept w
      rw [ok] at failed
      cases failed

/-- On a tree without bad handles, a pass that never fails succeeds. It enters the handles of the
original tree in preorder, and afterwards every slot of a node of this tree holds the answer for its
original occupant. Nothing else is changed in a node that was there before, and what is counted and
reported is the number of slots that changed. -/
theorem answering_transforms_tree (choose : Handle → NodeId → World (Tally σ) → Answer σ)
    (root : NodeId) (w : World (Tally σ))
    (answered : ∀ h kept w, ∃ id, (choose h kept w).result = .ok id)
    (single : SingleOwner w.arena ⟨.module, root⟩)
    (good : ∀ h, Reaches w.arena ⟨.module, root⟩ h → ∃ n, w.arena.Shows h n) :
    ∃ (tree : Forest) (answer : Handle → NodeId) (count : UInt64) (w' : World (Tally σ)) (enough : Nat),
      Unfolds w.arena ∅ [⟨.module, root⟩] tree ∧
      (∀ steps, enough ≤ steps →
        (answering choose).transform steps root w = some (.ok (answer ⟨.module, root⟩, count), w') ∧
        entered ((answering choose).account steps root w) = tree.preorder ∧
        answers ((answering choose).account steps root w) =
          tree.postorder.map fun h => (h, answer h)) ∧
      (∀ h n, Reaches w.arena ⟨.module, root⟩ h → w.arena.node h.node = .ok n →
        w'.arena.node h.node = .ok (n.mapChildren answer)) ∧
      (∀ id n, (∀ h, Reaches w.arena ⟨.module, root⟩ h → h.node ≠ id) → w.arena.node id = .ok n →
        w'.arena.node id = .ok n) ∧
      (w.state.replaced.toNat + w.arena.changes w'.arena < 2 ^ 64 →
        count.toNat = w.arena.changes w'.arena ∧
        w'.state.replaced.toNat = w.state.replaced.toNat + w.arena.changes w'.arena) := by
  obtain ⟨tree, unfolds⟩ := single.exists_unfolds ∅
  have distinct := single.nodup_ids unfolds
  have none := unfolds.stubs_eq_nil good
  -- The opening note leaves nodes and count alone, so the pass starts from the arena of `w`.
  obtain ⟨enough, past, new, last, ends, given, progress, -, keys, shown, -⟩ :=
    answering_succeeds (w := w.note (.started .transform root)) unfolds distinct none answered
  let full : Answers := given ++ [(⟨.module, root⟩, new)]
  have fullKeys : full.keys = tree.postorder := (Answers.keys_append ..).trans keys
  have fullDistinct : full.keys.Nodup := fullKeys ▸ Forest.nodup_postorder distinct
  have own : full.of ⟨.module, root⟩ = new :=
    Answers.of_mem fullDistinct (List.mem_append_right _ List.mem_cons_self)
  let count := growth w.state.replaced last.state.replaced
  refine ⟨tree, full.of, count, last.note (.transformed count (new != root)), enough, unfolds,
    fun steps more => ⟨?_, ?_, ?_⟩, ?_, ?_, ?_⟩
  · rw [transform, (ends steps more).1, own]
  · rw [account, (ends steps more).2, shown]
    rfl
  · rw [account, (ends steps more).2, progress.answers, ← fullKeys]
    exact Answers.eq_map_keys fullDistinct
  · intro h n reaches stored
    obtain ⟨n', shows⟩ := good h reaches
    obtain rfl : n' = n := Except.ok.inj (shows.1.symm.trans stored)
    exact progress.mapped _ (unfolds.mem_nodes (unfolds.mem_preorder_of_reaches reaches) shows)
  · intro id n unreached stored
    refine progress.touched.frame (fun mem => ?_) stored
    obtain ⟨p, there, rfl⟩ := List.mem_map.mp mem
    exact unreached p.1 (unfolds.reaches_of_mem_nodes p there) rfl
  · intro fits
    have all : ∀ h ∈ tree.preorder, h ∈ full.keys := by
      intro h mem
      rw [fullKeys, Forest.mem_postorder]
      exact ((tree.mem_preorder_iff h).mp mem).resolve_right (none ▸ List.not_mem_nil)
    have counted := progress.toNat_replaced_add_cutShort unfolds distinct fits
    rw [progress.cutShort_eq_zero unfolds distinct all, Nat.add_zero] at counted
    refine ⟨?_, counted⟩
    rw [toNat_growth (counted ▸ Nat.le_add_right ..)]
    exact Nat.sub_eq_of_eq_add' counted

def namespaceSample : World (Tally Unit) where
  arena := .ofList
    [⟨.nameSpace, ("all", [⟨1⟩], [], [], [⟨2⟩], [], ()), .dummy⟩,
      ⟨.nameSpace, ("part", [], [], [], [], [], ()), .dummy⟩,
      ⟨.variableDeclaration, ("x", none, some ⟨3⟩, none, true, ()), .dummy⟩,
      ⟨.constant, (.int 1, ()), .dummy⟩]
  log := #[]
  state := ⟨7, ()⟩

/-- The pass that puts a new constant in the place of node 3 and a bad handle in the place of node 1. -/
def renewing (h : Handle) (kept : NodeId) (w : World (Tally Unit)) : Answer Unit :=
  if h.node = ⟨3⟩ then ⟨[⟨.constant, (.int 2, ()), .dummy⟩], .ok ⟨w.arena.size⟩, ()⟩
  else if h.node = ⟨1⟩ then ⟨[], .ok ⟨99⟩, ()⟩
  else ⟨[], .ok kept, ()⟩

theorem answering_transforms_namespaceSample :
    ∃ (answer : Handle → NodeId) (count : UInt64) (w' : World (Tally Unit)) (enough : Nat),
      ∀ steps, enough ≤ steps →
        (answering renewing).transform steps ⟨0⟩ namespaceSample =
          some (.ok (answer ⟨.module, ⟨0⟩⟩, count), w') ∧
        entered ((answering renewing).account steps ⟨0⟩ namespaceSample) =
          [⟨.module, ⟨0⟩⟩, ⟨.module, ⟨1⟩⟩, ⟨.expression, ⟨2⟩⟩, ⟨.expression, ⟨3⟩⟩] ∧
        w'.arena.node ⟨0⟩ = .ok ⟨.nameSpace,
          ("all", [answer ⟨.module, ⟨1⟩⟩], [], [], [answer ⟨.expression, ⟨2⟩⟩], [], ()), .dummy⟩ := by
  have unfolds : Unfolds namespaceSample.arena ∅ [⟨.module, ⟨0⟩⟩] _ :=
    .node ⟨rfl, rfl⟩ (by decide)
      (.node ⟨rfl, rfl⟩ (by decide) .nil
        (.node ⟨rfl, rfl⟩ (by decide) (.node ⟨rfl, rfl⟩ (by decide) .nil .nil) .nil)) .nil
  have single : SingleOwner namespaceSample.arena ⟨.module, ⟨0⟩⟩ := .of_slots unfolds (by decide)
  have answered : ∀ h kept w, ∃ id, (renewing h kept w).result = .ok id := by
    intro h kept w
    unfold renewing
    split_ifs <;> exact ⟨_, rfl⟩
  obtain ⟨tree, answer, count, w', enough, same, ends, nodes, -⟩ :=
    answering_transforms_tree renewing ⟨0⟩ namespaceSample answered single
      fun h => unfolds.shows_of_reaches rfl
  refine ⟨answer, count, w', enough, fun steps more => ⟨(ends steps more).1, ?_, ?_⟩⟩
  · rw [(ends steps more).2.1, same.unique unfolds]
    rfl
  · exact nodes ⟨.module, ⟨0⟩⟩ _ .root rfl

/-- After a failure, the count together with the changed slots in sequences that were cut short makes
up all changed slots. So, unless it has overflowed, the count is right exactly when such sequences are
as they were. -/
theorem answering_failed_count (choose : Handle → NodeId → World (Tally σ) → Answer σ)
    (quiet : Quiet choose) (root : NodeId) (steps : Nat) (w w' : World (Tally σ)) (e : Fault)
    (single : SingleOwner w.arena ⟨.module, root⟩)
    (failed : (answering choose).transform steps root w = some (.error e, w')) :
    let given := answers ((answering choose).account steps root w)
    w'.state.replaced + UInt64.ofNat (w.arena.changesIn given.cutShort w'.arena) =
        w.state.replaced + UInt64.ofNat (w.arena.changes w'.arena) ∧
      (w.state.replaced.toNat + w.arena.changes w'.arena < 2 ^ 64 →
        (w'.state.replaced.toNat = w.state.replaced.toNat + w.arena.changes w'.arena ↔
          ∀ h n, Reaches w.arena ⟨.module, root⟩ h → w.arena.Shows h n →
            ∀ row ∈ n.rows, given.cutShort row → ∀ c ∈ row.held, given.of c = c.node)) := by
  obtain ⟨tree, unfolds⟩ := single.exists_unfolds ∅
  have distinct := single.nodup_ids unfolds
  obtain ⟨_, last, run, ⟨e', rfl, ended, rfl⟩ | ⟨newRoot, rfl, ended, rfl⟩⟩ := transform_cases failed
  · have ends := answering_ends choose (w := w.note (.started .transform root)) unfolds distinct
      (.inl quiet)
    obtain ⟨given, progress, -, -⟩ := ends.of_run_error run
    have shown : answers ((answering choose).account steps root w) = given := progress.answers
    rw [shown]
    refine ⟨progress.replaced_add_cutShort unfolds distinct, fun fits => ?_⟩
    have counted : w'.state.replaced.toNat + w.arena.changesIn given.cutShort w'.arena =
        w.state.replaced.toNat + w.arena.changes w'.arena :=
      progress.toNat_replaced_add_cutShort unfolds distinct fits
    have right : w'.state.replaced.toNat = w.state.replaced.toNat + w.arena.changes w'.arena ↔
        w.arena.changesIn given.cutShort w'.arena = 0 := by
      omega
    rw [right]
    refine (progress.cutShort_eq_zero_iff unfolds distinct).trans ⟨?_, ?_⟩
    · intro kept h n reaches shows
      exact kept (h, n) (unfolds.mem_nodes (unfolds.mem_preorder_of_reaches reaches) shows)
    · intro kept p mem
      exact kept p.1 p.2 (unfolds.reaches_of_mem_nodes p mem) (unfolds.shows_of_mem p mem)
  · cases ended

/-- A namespace with two parts, of which the second one does not exist. -/
def cutSample : World (Tally Unit) where
  arena := .ofList
    [⟨.nameSpace, ("all", [⟨1⟩, ⟨99⟩], [], [], [], [], ()), .dummy⟩,
      ⟨.nameSpace, ("part", [], [], [], [], [], ()), .dummy⟩]
  log := #[]
  state := ⟨0, ()⟩

def swapping (h : Handle) (kept : NodeId) (_ : World (Tally Unit)) : Answer Unit :=
  ⟨[], .ok (if h.node = ⟨1⟩ then ⟨5⟩ else kept), ()⟩

/-- The sample after the pass. The first part was overwritten, but not counted. -/
def cutSampleAfter : World (Tally Unit) :=
  { cutSample with
    arena := cutSample.arena.put .nameSpace ⟨0⟩ ("all", [⟨5⟩, ⟨99⟩], [], [], [], [], ())
    log := #[.started .transform ⟨0⟩] }

theorem cutSample_fails : (answering swapping).transform 40 ⟨0⟩ cutSample =
    some (.error (.danglingHandle ⟨99⟩ 2), cutSampleAfter) := by
  rfl

theorem cutSample_single : SingleOwner cutSample.arena ⟨.module, ⟨0⟩⟩ := by
  have unfolds : Unfolds cutSample.arena ∅ [⟨.module, ⟨0⟩⟩] _ :=
    .node ⟨rfl, rfl⟩ (by decide)
      (.node ⟨rfl, rfl⟩ (by decide) .nil (.stub (fun _ shows => by cases shows.1) .nil)) .nil
  exact .of_slots unfolds (by decide)

theorem answering_failed_count_cutSample :
    let given := answers ((answering swapping).account 40 ⟨0⟩ cutSample)
    cutSampleAfter.state.replaced +
        UInt64.ofNat (cutSample.arena.changesIn given.cutShort cutSampleAfter.arena) = 1 ∧
      ¬ ∀ h n, Reaches cutSample.arena ⟨.module, ⟨0⟩⟩ h → cutSample.arena.Shows h n →
        ∀ row ∈ n.rows, given.cutShort row → ∀ c ∈ row.held, given.of c = c.node := by
  have changed : cutSample.arena.changes cutSampleAfter.arena = 1 := by decide
  have holds := answering_failed_count swapping (fun _ _ _ => rfl) ⟨0⟩ 40 cutSample cutSampleAfter _
    cutSample_single cutSample_fails
  rw [changed] at holds
  refine ⟨holds.1, fun kept => ?_⟩
  exact absurd ((holds.2 (by decide)).mpr kept) (by decide)

/-- The pass fails after it has overwritten a slot, and its count has not grown. -/
theorem cutSample_miscounted :
    Quiet swapping ∧ SingleOwner cutSample.arena ⟨.module, ⟨0⟩⟩ ∧
      (answering swapping).transform 40 ⟨0⟩ cutSample =
        some (.error (.danglingHandle ⟨99⟩ 2), cutSampleAfter) ∧
      cutSample.arena.changes cutSampleAfter.arena = 1 ∧
      cutSampleAfter.state.replaced = cutSample.state.replaced :=
  ⟨fun _ _ _ => rfl, cutSample_single, cutSample_fails, by decide, rfl⟩

end Transformer

end ProgramTree
