import ProgramTree.Proofs.Lockstep
import ProgramTree.Proofs.Walking

/-!
Two transforming passes side by side. A tie relates worlds of the two that hold the same arena and the
same count, and lasts as long as both engines do the same (`Tie`). When the handlers of the passes match
along a tie, whole transformations have the same result and end in tied worlds (`Tie.transform_rel`).
-/

namespace ProgramTree

/-- A relation of the worlds of two passes that the steps of the engine keep. -/
structure Tie (σ σ' : Type) where
  world : World (Tally σ) → World (Tally σ') → Prop
  arena {w : World (Tally σ)} {w' : World (Tally σ')} : world w w' → w'.arena = w.arena
  replaced {w : World (Tally σ)} {w' : World (Tally σ')} :
    world w w' → w'.state.replaced = w.state.replaced
  note {w : World (Tally σ)} {w' : World (Tally σ')} (e : Event) :
    world w w' → world (w.note e) (w'.note e)
  store {w : World (Tally σ)} {w' : World (Tally σ')} (a : Arena) :
    world w w' → world { w with arena := a } { w' with arena := a }
  bump {w : World (Tally σ)} {w' : World (Tally σ')} (n : Nat) :
    world w w' → world (w.bump n) (w'.bump n)

namespace Tie

variable {σ σ' α : Type} (tie : Tie σ σ')

abbrev tasks : Correspondence (World (Tally σ)) (World (Tally σ'))
    (TaskReply Transformer.Reply fun _ : Transformer.Loop => Nat)
    (TaskReply Transformer.Reply fun _ : Transformer.Loop => Nat) :=
  .same _ tie.world

theorem shares : tie.tasks.Shares where
  arena := tie.arena
  note e := tie.note e

variable {tie} {w : World (Tally σ)} {w' : World (Tally σ')}

theorem go_matches (loop : Transformer.Loop) : Script.Matches tie.tasks Eq loop.go loop.go :=
  .same_perform (Sum.inr loop)

theorem write_matches (t : Tag) (owner : NodeId) (k i : Nat) (new : Option NodeId) :
    Script.Matches tie.tasks Eq (Script.step ((Access.lane t owner k).write i new))
      (Script.step ((Access.lane t owner k).write i new)) := by
  refine .step fun w w' worlds => ?_
  cases new with
  | none => exact ⟨.ok rfl, worlds⟩
  | some child =>
    dsimp only [Access.lane, World.fill]
    rw [tie.arena worlds]
    cases w.arena.get t owner with
    | error e => exact ⟨.error e, worlds⟩
    | ok record =>
      dsimp only
      cases record.place? t.fields k i with
      | none => exact ⟨.ok rfl, worlds⟩
      | some _ => exact ⟨.ok rfl, tie.store _ worlds⟩

theorem count_matches (n : Nat) :
    Script.Matches tie.tasks Eq (Transformer.count n) (Transformer.count n) :=
  fun _ _ worlds => .finish (.ok rfl) (tie.bump n worlds)

theorem replacePlace_matches (c : Category) (place : Option NodeId) :
    Script.Matches tie.tasks Eq (Transformer.replacePlace c place)
      (Transformer.replacePlace c place) := by
  cases place with
  | none => exact .pure rfl
  | some child =>
    refine .bind (.same_perform _) fun new new' same => ?_
    subst same
    exact .pure rfl

theorem walkLane_matches (t : Tag) (owner : NodeId) (lane : Lane) (k : Nat) :
    Script.Matches tie.tasks Eq (Transformer.walkLane t owner lane k)
      (Transformer.walkLane t owner lane k) := by
  unfold Transformer.walkLane
  cases lane.arity with
  | one =>
    refine tie.shares.place t owner k 0 fun place => ?_
    cases place with
    | none => exact .pure rfl
    | some old =>
      refine .bind (replacePlace_matches lane.category old) fun new new' same => ?_
      subst same
      by_cases kept : new = old
      · simp only [if_pos kept]
        exact .pure rfl
      · simp only [if_neg kept]
        refine .bind (write_matches t owner k 0 new) fun there there' same => ?_
        subst same
        cases there with
        | false => exact .pure rfl
        | true => exact count_matches 1
  | many =>
    refine .bind (go_matches _) fun replaced replaced' same => ?_
    subst same
    exact count_matches replaced

theorem round_matches (r : Transformer σ) (r' : Transformer σ') (loop : Transformer.Loop) :
    Script.Matches tie.tasks Eq (r.body (.inr loop)) (r'.body (.inr loop)) := by
  refine tie.shares.place loop.t loop.owner loop.k loop.i fun place => ?_
  cases place with
  | none => exact .pure rfl
  | some old =>
    refine .bind (replacePlace_matches loop.category old) fun new new' same => ?_
    subst same
    by_cases kept : new = old
    · simp only [if_pos kept]
      exact go_matches _
    · simp only [if_neg kept]
      refine .bind (write_matches loop.t loop.owner loop.k loop.i new) fun there there' same => ?_
      subst same
      cases there with
      | true => exact go_matches _
      | false =>
        have noted : Script.Matches tie.tasks Eq
            (Script.update fun w => w.note (.dropped loop.i))
            (Script.update fun w => w.note (.dropped loop.i)) :=
          fun _ _ worlds => .finish (.ok rfl) (tie.note _ worlds)
        exact .bind noted fun _ _ _ => go_matches _

variable {r : Transformer σ} {r' : Transformer σ'}
  (enters : ∀ h, Script.Matches tie.tasks Eq (r.enter h).embed (r'.enter h).embed)
  (methods : ∀ t id, Script.Matches tie.tasks Eq (r.method t id).embed (r'.method t id).embed)

include enters methods

theorem bodies_match (task : Call ⊕ Transformer.Loop) :
    Script.Matches tie.tasks Eq (r.body task) (r'.body task) := by
  rcases task with (h | h | ⟨t, owner⟩) | loop
  · exact enters h
  · exact tie.shares.dispatch h fun t => methods t h.node
  · exact .forM (fun p : Lane × Nat => walkLane_matches t owner p.1 p.2) t.lanes.zipIdx
  · exact round_matches r r' loop

variable (tie)

/-- Tied worlds are transformed alike. -/
theorem transform_rel (steps : Nat) (root : NodeId) (worlds : tie.world w w') :
    Option.Rel (fun o o' => o'.1 = o.1 ∧ tie.world o.2 o'.2) (r.transform steps root w)
      (r'.transform steps root w') := by
  have runs := Machine.run_same (bodies_match enters methods) steps (.inl (.enter ⟨.module, root⟩))
    (tie.note (.started .transform root) worlds)
  unfold Transformer.transform Transformer.run
  revert runs
  generalize Machine.run r.body steps _ (w.note (.started .transform root)) = o
  generalize Machine.run r'.body steps _ (w'.note (.started .transform root)) = o'
  intro runs
  cases runs with
  | none => exact .none
  | @some ended ended' ends =>
    obtain ⟨result, last⟩ := ended
    obtain ⟨result', last'⟩ := ended'
    obtain ⟨same, lasts⟩ := ends
    change result' = result at same
    subst same
    cases result' with
    | error e => exact .some ⟨rfl, lasts⟩
    | ok newRoot =>
      have grown : last'.state.replaced = last.state.replaced := tie.replaced lasts
      simp only [tie.replaced worlds, grown]
      exact .some ⟨rfl, tie.note _ lasts⟩

end Tie

end ProgramTree
