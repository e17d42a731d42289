import Mathlib.Algebra.BigOperators.Group.Finset.Basic
import ProgramTree.Census
import ProgramTree.Proofs.Marking
import ProgramTree.Proofs.Paths
import ProgramTree.Proofs.WellTyped

/-!
What the census counts. A node is counted once for each way from the root to it, and so, if it is shared
by nodes that are shared themselves, more often than there are slots that hold it
(`census_counts_ways`).
-/

namespace ProgramTree

namespace Census

theorem visitor_marking : visitor.Marking (fun p seen => p.2.tag :: seen) ∅ where
  enter {h _ w} shown := Script.read_bind (f := fun w => w.arena.node h.node) (w := w) shown.1 _
  skip _ tag := absurd tag (Finset.notMem_empty _)
  walk _ _ := rfl

theorem marked_visitor (nodes : List (Handle × Node)) (seen : List Tag) :
    Visitor.marked (fun p seen => p.2.tag :: seen) nodes seen =
      (nodes.map fun p => p.2.tag).reverse ++ seen := by
  induction nodes generalizing seen with
  | nil => rfl
  | cons p nodes ih => simp [Visitor.marked]

theorem mem_all (t : Tag) : t ∈ Tag.all := by
  cases t <;> decide

theorem nodup_all : Tag.all.Nodup := by
  decide

theorem nodup_keys_counts (seen : List Tag) : ((counts seen).map Prod.fst).Nodup := by
  have keys : ((Tag.all.map fun t => (t, seen.count t)).map Prod.fst).Nodup := by
    simpa [Function.comp_def] using nodup_all
  exact keys.sublist (List.filter_sublist.map _)

theorem lookup_filter (f : Tag → Nat) (t : Tag) (ts : List Tag) :
    ((ts.map fun t => (t, f t)).filter fun p => p.2 != 0).lookup t =
      if t ∈ ts ∧ f t ≠ 0 then some (f t) else none := by
  induction ts with
  | nil => simp
  | cons s ts ih =>
    by_cases zero : f s = 0
    · by_cases same : t = s
      · subst same
        simp [zero, ih]
      · simp [zero, ih, same]
    · by_cases same : t = s
      · subst same
        simp [zero]
      · have other : (t == s) = false := by simpa using same
        simp [zero, ih, same, other, List.lookup_cons]

theorem lookup_counts (seen : List Tag) (t : Tag) :
    (counts seen).lookup t = if seen.count t = 0 then none else some (seen.count t) := by
  rw [counts, lookup_filter]
  by_cases zero : seen.count t = 0 <;> simp [zero, mem_all]

theorem sum_filter (f : Tag → Nat) (ts : List Tag) :
    (((ts.map fun t => (t, f t)).filter fun p => p.2 != 0).map Prod.snd).sum = (ts.map f).sum := by
  induction ts with
  | nil => rfl
  | cons s ts ih =>
    by_cases zero : f s = 0
    · simp [zero, ih]
    · simp [zero, ih]

theorem sum_map_count {ts : List Tag} (distinct : ts.Nodup) (all : ∀ t, t ∈ ts) (seen : List Tag) :
    (ts.map fun t => seen.count t).sum = seen.length := by
  have within : ∀ t ∈ (seen : Multiset Tag), t ∈ ts.toFinset := fun t _ => List.mem_toFinset.mpr (all t)
  rw [← List.sum_toFinset _ distinct]
  simpa using Multiset.sum_count_eq_card within

theorem sum_counts (seen : List Tag) : ((counts seen).map Prod.snd).sum = seen.length := by
  rw [counts, sum_filter, sum_map_count nodup_all mem_all]

end Census

theorem census_mono {σ : Type} {m n : Nat} (le : m ≤ n) {root : NodeId} {w : World σ}
    {outcome : Except Fault (List (Tag × Nat)) × World σ} (done : census m root w = some outcome) :
    census n root w = some outcome := by
  obtain ⟨inner, run, rfl⟩ := Option.map_eq_some_iff.mp done
  have more : Census.visitor.traverse n root { w with state := [] } = some inner :=
    Machine.run_mono le run
  rw [census, more]
  rfl

/-- The census of a tree goes by the tags of its nodes. -/
theorem census_of_unfolds {σ : Type} {root : NodeId} {w : World σ} {f : Forest}
    (unfolds : Unfolds w.arena ∅ [⟨.module, root⟩] f) (none : f.stubs = []) :
    ∃ enough, ∀ steps, enough ≤ steps → census steps root w =
      some (.ok (Census.counts (f.nodes.map fun p => p.2.tag).reverse),
        w.note (.started .traverse root)) := by
  obtain ⟨enough, ends⟩ := Census.visitor_marking.run
    (w := { w.note (.started .traverse root) with state := [] }) unfolds none
  refine ⟨enough, fun steps more => ?_⟩
  have done : Census.visitor.traverse steps root { w with state := [] } = _ := ends steps more
  rw [Census.marked_visitor, List.append_nil] at done
  rw [census, done]
  rfl

/-- From any module root below which all handles are good and no node lies on a cycle, the census
succeeds and changes nothing but the log. For each variant it counts the ways from the root to nodes of
that variant, and it lists no variant without such a way. The counts add up to at least one more than
the number of child slots of the nodes reached. They add up to just that if and only if all nodes that
are reached in several ways are childless. -/
theorem census_counts_ways {σ : Type} (root : NodeId) (w : World σ)
    (acyclic : Acyclic w.arena ⟨.module, root⟩)
    (good : ∀ h, Reaches w.arena ⟨.module, root⟩ h → w.arena.Good h) :
    ∃ (counts : List (Tag × Nat)) (enough : Nat),
      (∀ steps, enough ≤ steps →
        census steps root w = some (.ok counts, w.note (.started .traverse root))) ∧
      (counts.map Prod.fst).Nodup ∧
      (∀ t, (counts.lookup t = none ↔ waysTo w.arena ⟨.module, root⟩ t = ∅) ∧
        (((counts.lookup t).getD 0 : Nat) : ℕ∞) = (waysTo w.arena ⟨.module, root⟩ t).encard) ∧
      1 + (slotsFrom w.arena ⟨.module, root⟩).encard ≤ (counts.map Prod.snd).sum ∧
      (1 + (slotsFrom w.arena ⟨.module, root⟩).encard = (counts.map Prod.snd).sum ↔
        ∀ way way' h h' n, Way w.arena ⟨.module, root⟩ way h → Way w.arena ⟨.module, root⟩ way' h' →
          way ≠ way' → h.node = h'.node → w.arena.Shows h n → n.children = []) := by
  obtain ⟨tree, unfolds⟩ := acyclic.exists_unfolds ∅
  have none := unfolds.stubs_eq_nil good
  obtain ⟨enough, ends⟩ := Census.visitor_marking.run
    (w := { w.note (.started .traverse root) with state := [] }) unfolds none
  let seen := (tree.nodes.map fun p => p.2.tag).reverse
  have total : ((Census.counts seen).map Prod.snd).sum = (ways w.arena ⟨.module, root⟩).encard := by
    rw [Census.sum_counts, unfolds.encard_ways good]
    simp [seen]
  have each : ∀ t, (seen.count t : ℕ∞) = (waysTo w.arena ⟨.module, root⟩ t).encard := by
    intro t
    rw [unfolds.encard_waysTo, List.count_reverse]
  refine ⟨Census.counts seen, enough, fun steps more => ?_, Census.nodup_keys_counts seen, fun t => ?_,
    ?_, ?_⟩
  · have done : Census.visitor.traverse steps root { w with state := [] } = _ := ends steps more
    rw [Census.marked_visitor, List.append_nil] at done
    rw [census, done]
    rfl
  · rw [Census.lookup_counts, ← Set.encard_eq_zero, ← each]
    by_cases zero : seen.count t = 0 <;> simp [zero]
  · rw [total]
    exact one_add_encard_slots_le _ _
  · rw [total]
    apply one_add_encard_slots_eq_iff good
    rw [← Set.encard_lt_top_iff, ← total]
    exact ENat.natCast_lt_top _

/-- A namespace that holds a sum twice, both sides of which are the same constant. -/
def sharedSample : World Unit where
  arena := .ofList
    [⟨.nameSpace, ("all", [], [], [], [⟨1⟩, ⟨1⟩], [], ()), .dummy⟩,
      ⟨.binaryOperator, (.add, ⟨2⟩, ⟨2⟩, ()), .dummy⟩, ⟨.constant, (.int 1, ()), .dummy⟩]
  log := #[]
  state := ()

theorem sharedSample_child {id : NodeId} {n : Node} {c : Handle} (found : sharedSample.arena.node id = .ok n)
    (mem : c ∈ n.children) : sharedSample.arena.Good c ∧ id.index < c.node.index := by
  obtain ⟨_ | _ | _ | k⟩ := id
  · cases found
    rcases List.mem_pair.mp mem with rfl | rfl
    · exact ⟨⟨_, rfl, rfl⟩, by decide⟩
    · exact ⟨⟨_, rfl, rfl⟩, by decide⟩
  · cases found
    rcases List.mem_pair.mp mem with rfl | rfl
    · exact ⟨⟨_, rfl, rfl⟩, by decide⟩
    · exact ⟨⟨_, rfl, rfl⟩, by decide⟩
  · cases found
    cases mem
  · cases found

/-- The constant is held by two slots, and there are four ways to it. -/
theorem census_counts_ways_sharedSample :
    census 100 ⟨0⟩ sharedSample =
        some (.ok [(.nameSpace, 1), (.constant, 4), (.binaryOperator, 2)],
          sharedSample.note (.started .traverse ⟨0⟩)) ∧
      (waysTo sharedSample.arena ⟨.module, ⟨0⟩⟩ .constant).encard = 4 ∧
      1 + (slotsFrom sharedSample.arena ⟨.module, ⟨0⟩⟩).encard < 7 := by
  have done : census 100 ⟨0⟩ sharedSample =
      some (.ok [(.nameSpace, 1), (.constant, 4), (.binaryOperator, 2)],
        sharedSample.note (.started .traverse ⟨0⟩)) := by
    rfl
  have typed : sharedSample.arena.WellTyped := fun _ _ found _ mem => (sharedSample_child found mem).1
  obtain ⟨counts, enough, ends, -, each, least, exactly⟩ := census_counts_ways ⟨0⟩ sharedSample
    (.of_lt fun found mem => (sharedSample_child found mem).2)
    fun h => typed.good_of_reaches ⟨_, rfl, rfl⟩
  obtain rfl : counts = [(.nameSpace, 1), (.constant, 4), (.binaryOperator, 2)] := by
    have more := census_mono (Nat.le_max_right enough 100) done
    rw [ends _ (Nat.le_max_left enough 100)] at more
    simpa using more
  refine ⟨done, (each .constant).2.symm, lt_of_le_of_ne least fun equal => ?_⟩
  have first : Way sharedSample.arena ⟨.module, ⟨0⟩⟩ [(⟨0⟩, 0)] ⟨.expression, ⟨1⟩⟩ :=
    .step .start ⟨rfl, rfl⟩ rfl
  have second : Way sharedSample.arena ⟨.module, ⟨0⟩⟩ [(⟨0⟩, 1)] ⟨.expression, ⟨1⟩⟩ :=
    .step .start ⟨rfl, rfl⟩ rfl
  have childless := exactly.mp equal _ _ _ _ _ first second (by decide) rfl ⟨rfl, rfl⟩
  cases childless

end ProgramTree
