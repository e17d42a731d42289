import ProgramTree.Proofs.Lockstep

/-!
The two engines agree. A reading pass becomes a transforming one when each of its handlers answers with
the node it was given (`Visitor.keeping`). The engines then make the same calls, step by step, on any
arena and whatever the handlers do to it, and end in the same way with the same arena. No place is
overwritten and the count stays as it was (`keeping_agrees`).
-/

namespace ProgramTree

variable {σ : Type}

def World.counted (n : UInt64) (w : World σ) : World (Tally σ) :=
  ⟨w.arena, w.log, ⟨n, w.state⟩⟩

def World.uncounted (w : World (Tally σ)) : World σ :=
  ⟨w.arena, w.log, w.state.own⟩

/-- The code of a handler, answering with `id` in the end. Replies are taken as mere ends, and the
count is passed along. -/
def Next.keeping (id : NodeId) (n : UInt64) :
    Next (World σ) Visitor.Reply Unit → Next (World (Tally σ)) Transformer.Reply NodeId
  | finish r w => .finish (r.map fun _ => id) (w.counted n)
  | call c w resume => .call c (w.counted n) fun r w' =>
      (resume (r.map fun _ => ()) w'.uncounted).keeping id w'.state.replaced

/-- The transforming pass with the handlers of `v`, each answering with the node it was given. -/
def Visitor.keeping (v : Visitor σ) : Transformer σ where
  enter h := fun w => (v.enter h w.uncounted).keeping h.node w.state.replaced
  method t id := fun w => (v.method t id w.uncounted).keeping id w.state.replaced

namespace Transformer

def kept : (task : Call ⊕ Loop) → TaskReply Reply (fun _ => Nat) task
  | .inl (.enter h) => h.node
  | .inl (.dispatch h) => h.node
  | .inl (.walk ..) => ()
  | .inr loop => loop.replaced

end Transformer

/-- The tasks of the two engines that belong together. A transforming loop has replaced nothing. -/
inductive SameTask : Call ⊕ Visitor.Loop → Call ⊕ Transformer.Loop → Prop where
  | call (c : Call) : SameTask (.inl c) (.inl c)
  | loop (t : Tag) (owner : NodeId) (category : Category) (k i : Nat) :
      SameTask (.inr ⟨t, owner, category, k, i⟩) (.inr ⟨t, owner, category, k, i, 0⟩)

/-- The engines side by side, in worlds that satisfy `P`. -/
def sideBySide (P : World σ → Prop) (n : UInt64) :
    Correspondence (World σ) (World (Tally σ)) (TaskReply Visitor.Reply fun _ : Visitor.Loop => Unit)
      (TaskReply Transformer.Reply fun _ : Transformer.Loop => Nat) where
  world w w' := P w ∧ w' = w.counted n
  call := SameTask
  reply _ c' _ a' := a' = Transformer.kept c'

section Engines

variable {P : World σ → Prop} {n : UInt64}

theorem sideBySide_shares (noted : ∀ e w, P w → P (w.note e)) : (sideBySide P n).Shares where
  arena worlds := congrArg World.arena worlds.2
  note e worlds := ⟨noted e _ worlds.1, by rw [worlds.2]; rfl⟩

theorem task_matches {task : Call ⊕ Visitor.Loop} {task' : Call ⊕ Transformer.Loop}
    (same : SameTask task task') :
    Script.Matches (sideBySide P n) (fun _ a => a = Transformer.kept task') (Script.perform task)
      (Script.perform task') :=
  .perform (show (sideBySide P n).call task task' from same)

theorem place_matches (c : Category) (place : Option NodeId) :
    Script.Matches (sideBySide P n) (fun _ new => new = place) (Visitor.visitPlace c place)
      (Transformer.replacePlace c place) := by
  cases place with
  | none => exact .pure rfl
  | some child =>
    rw [Visitor.visitPlace, Transformer.replacePlace, ← bind_pure (Script.perform _)]
    refine .bind (task_matches (.call (.enter ⟨c, child⟩))) fun _ new answer => ?_
    exact .pure (congrArg some answer)

theorem count_none_matches :
    Script.Matches (sideBySide P n) Eq (pure ()) (Transformer.count 0) := by
  intro w w' worlds
  refine .finish (.ok rfl) ⟨worlds.1, ?_⟩
  simp [worlds.2, World.counted]

section Bodies

variable (noted : ∀ e w, P w → P (w.note e)) (v : Visitor σ) (r : Transformer σ)

include noted

theorem walkLane_matches (live : ∀ w, P w → v.policy w.state = .live) (t : Tag) (owner : NodeId)
    (lane : Lane) (k : Nat) :
    Script.Matches (sideBySide P n) Eq (v.walkLane t owner lane k)
      (Transformer.walkLane t owner lane k) := by
  cases arity : lane.arity with
  | one =>
    unfold Visitor.walkLane Transformer.walkLane
    rw [arity]
    refine (sideBySide_shares noted).place t owner k 0 fun place => ?_
    cases place with
    | none => exact .pure rfl
    | some old =>
      rw [Option.join_some, ← bind_pure (Visitor.visitPlace lane.category old)]
      refine .bind (place_matches lane.category old) fun _ new answer => ?_
      subst answer
      rw [if_pos rfl]
      exact .pure rfl
  | many =>
    intro w w' worlds
    rw [Visitor.walkLane_live arity t owner k (live w worlds.1), ← bind_pure (Visitor.Loop.go _)]
    unfold Transformer.walkLane
    rw [arity]
    refine Script.Matches.bind (task_matches (.loop t owner lane.category k 0)) (fun _ replaced none => ?_)
      w w' worlds
    rw [none]
    exact count_none_matches

theorem round_matches (t : Tag) (owner : NodeId) (category : Category) (k i : Nat) :
    Script.Matches (sideBySide P n) (fun _ replaced => replaced = 0)
      (v.body (.inr ⟨t, owner, category, k, i⟩)) (r.body (.inr ⟨t, owner, category, k, i, 0⟩)) := by
  refine (sideBySide_shares noted).place t owner k i fun place => ?_
  cases place with
  | none => exact .pure rfl
  | some old =>
    refine .bind (place_matches category old) fun _ new answer => ?_
    subst answer
    rw [if_pos rfl]
    exact task_matches (.loop t owner category k (i + 1))

theorem bodies_match (live : ∀ w, P w → v.policy w.state = .live)
    (enters : ∀ h, Script.Matches (sideBySide P n) (fun _ id => id = h.node)
      (v.enter h).embed (r.enter h).embed)
    (methods : ∀ t id, Script.Matches (sideBySide P n) (fun _ id' => id' = id)
      (v.method t id).embed (r.method t id).embed)
    (task : Call ⊕ Visitor.Loop) (task' : Call ⊕ Transformer.Loop) (same : SameTask task task') :
    Script.Matches (sideBySide P n) ((sideBySide P n).reply task task') (v.body task)
      (r.body task') := by
  cases same with
  | call c =>
    cases c with
    | enter h => exact enters h
    | dispatch h => exact (sideBySide_shares noted).dispatch h fun t => methods t h.node
    | walk t owner =>
      have lanes := Script.Matches.forM (fun p : Lane × Nat =>
        walkLane_matches (n := n) noted v live t owner p.1 p.2) t.lanes.zipIdx
      exact fun w w' worlds => (lanes w w' worlds)
  | loop t owner category k i => exact round_matches noted v r t owner category k i

end Bodies

end Engines

theorem Next.keeping_matches (id : NodeId) (n : UInt64) (next : Next (World σ) Visitor.Reply Unit) :
    Next.Matches (sideBySide (fun _ => True) n) (fun _ id' => id' = id) next.embed
      (next.keeping id n).embed := by
  induction next with
  | finish r w =>
    refine .finish ?_ ⟨trivial, rfl⟩
    cases r with
    | ok _ => exact .ok rfl
    | error e => exact .error e
  | call c w resume ih =>
    refine .call (.call c) ⟨trivial, rfl⟩ fun r r' w w' results worlds => ?_
    obtain rfl := worlds.2
    have replies : r'.map (fun _ => ()) = r := by cases results <;> rfl
    rw [← replies]
    exact ih _ w

theorem default_enter_matches (a : Arena) (own : σ) (n : UInt64) (h : Handle) :
    Script.Matches (sideBySide (fun w => w.arena = a ∧ w.state = own) n) (fun _ id => id = h.node)
      (({} : Visitor σ).enter h).embed (({} : Transformer σ).enter h).embed :=
  task_matches (.call (.dispatch h))

theorem default_method_matches (a : Arena) (own : σ) (n : UInt64) (t : Tag) (id : NodeId) :
    Script.Matches (sideBySide (fun w => w.arena = a ∧ w.state = own) n) (fun _ id' => id' = id)
      (({} : Visitor σ).method t id).embed (({} : Transformer σ).method t id).embed := by
  change Script.Matches _ _ (Script.perform (Sum.inl (Call.walk t id)))
    (Script.embed (Script.perform (Call.walk t id) >>= fun _ => pure id))
  rw [Script.embed_bind, ← bind_pure (Script.perform _)]
  exact .bind (task_matches (.call (.walk t id))) fun _ _ _ => .pure rfl

theorem calls_eq_of_matches {P : World σ → Prop} {n : UInt64}
    {past : List (Moment (TaskReply Visitor.Reply fun _ : Visitor.Loop => Unit))}
    {past' : List (Moment (TaskReply Transformer.Reply fun _ : Transformer.Loop => Nat))}
    (shown : List.Forall₂ (Moment.Matches (sideBySide P n)) past past') :
    calls (visible past') = calls (visible past) := by
  induction shown with
  | nil => rfl
  | cons first _ ih =>
    cases first with
    | began same =>
      cases same with
      | call c => exact congrArg (c :: ·) ih
      | loop => exact ih
    | ended same _ =>
      cases same with
      | call c => exact ih
      | loop => exact ih

theorem keeping_run (v : Visitor σ) (n : UInt64) (steps : Nat) (c : Call) (w : World σ)
    (live : ∀ s, v.policy s = .live) :
    v.keeping.run steps c (w.counted n) =
        (v.run steps c w).map (fun (r, w') =>
          (r.map fun _ => Transformer.kept (.inl c), w'.counted n)) ∧
      calls (v.keeping.history steps c (w.counted n)) = calls (v.history steps c w) := by
  have bodies := bodies_match (P := fun _ => True) (n := n) (fun _ _ _ => trivial) v v.keeping
    (fun w _ => live w.state)
    (fun h w w' worlds => by
      obtain rfl := worlds.2
      exact Next.keeping_matches h.node n (v.enter h w))
    (fun t id w w' worlds => by
      obtain rfl := worlds.2
      exact Next.keeping_matches id n (v.method t id w))
  have worlds : (sideBySide (fun _ => True) n).world w (w.counted n) := ⟨trivial, rfl⟩
  obtain ⟨outcomes, shown⟩ := Machine.run_matches bodies steps (SameTask.call c) worlds
  refine ⟨eq_map_of_rel (fun outcome outcome' ends => ?_) outcomes, calls_eq_of_matches shown⟩
  exact Prod.ext ends.1.eq_map ends.2.2

/-- The default pass keeps every node it is called for, and changes nothing but the log. -/
theorem default_run {steps : Nat} {c : Call} {w w' : World (Tally σ)}
    {result : Except Fault (Transformer.Reply c)}
    (done : ({} : Transformer σ).run steps c w = some (result, w')) :
    w'.arena = w.arena ∧ w'.state = w.state ∧ ∀ id, result = .ok id → id = Transformer.kept (.inl c) := by
  have bodies := bodies_match (P := fun w' => w'.arena = w.arena ∧ w'.state = w.state.own)
    (n := w.state.replaced) (fun _ _ same => same) {} {} (fun _ _ => rfl)
    (default_enter_matches w.arena w.state.own w.state.replaced)
    (default_method_matches w.arena w.state.own w.state.replaced)
  have worlds : (sideBySide (fun w' => w'.arena = w.arena ∧ w'.state = w.state.own)
      w.state.replaced).world w.uncounted w := ⟨⟨rfl, rfl⟩, rfl⟩
  have outcomes := (Machine.run_matches bodies steps (SameTask.call c) worlds).1
  rw [show Machine.run ({} : Transformer σ).body steps (.inl c) w = some (result, w') from done]
    at outcomes
  generalize Machine.run ({} : Visitor σ).body steps (.inl c) w.uncounted = visited at outcomes
  cases outcomes with
  | @some visit _ ends =>
    obtain ⟨reply, last⟩ := visit
    obtain ⟨results, ⟨arena, own⟩, counted⟩ := ends
    change Agree _ reply result at results
    change last.arena = w.arena at arena
    change last.state = w.state.own at own
    change w' = last.counted w.state.replaced at counted
    refine ⟨?_, ?_, ?_⟩
    · rw [counted, ← arena]
      rfl
    · rw [counted, World.counted, own]
    · rintro id rfl
      cases results with
      | ok kept => exact kept

/-- A reading pass and the transforming pass that keeps every node run alike on any arena, from any
call and with any handlers. In particular the pass without handlers of its own keeps the root,
overwrites nothing and leaves the arena as it was, whether it succeeds or fails. -/
theorem keeping_agrees (v : Visitor σ) (live : ∀ s, v.policy s = .live) (n : UInt64) (steps : Nat)
    (c : Call) (w : World σ) :
    v.keeping.run steps c (w.counted n) =
        (v.run steps c w).map (fun (r, w') =>
          (r.map fun _ => Transformer.kept (.inl c), w'.counted n)) ∧
      calls (v.keeping.history steps c (w.counted n)) = calls (v.history steps c w) ∧
      ∀ (root : NodeId) (start final : World (Tally σ)) (result : Except Fault (NodeId × UInt64)),
        ({} : Transformer σ).transform steps root start = some (result, final) →
          final.arena = start.arena ∧ final.state = start.state ∧
            ∀ outcome, result = .ok outcome → outcome = (root, 0) := by
  obtain ⟨outcomes, shown⟩ := keeping_run v n steps c w live
  refine ⟨outcomes, shown, fun root start final result done => ?_⟩
  obtain ⟨reply, last, run, ending⟩ := Transformer.transform_cases done
  obtain ⟨arena, state, keeps⟩ := default_run run
  rcases ending with ⟨e, rfl, rfl, rfl⟩ | ⟨newRoot, rfl, rfl, rfl⟩
  · exact ⟨arena, state, fun outcome ok => by cases ok⟩
  · refine ⟨arena, state, fun outcome ok => ?_⟩
    have same : newRoot = root := keeps newRoot rfl
    cases ok
    rw [same, state]
    simp [Transformer.growth, World.note]

/-- The pass that notes what it enters and, when that is node 1, puts node 2 behind it in the block
that is being walked. -/
def insertingPass : Visitor (List NodeId) where
  enter h := do
    Script.update fun w =>
      { w with
        arena := if h.node = ⟨1⟩ then w.arena.put .block ⟨0⟩ ([⟨1⟩, ⟨2⟩], ()) else w.arena
        state := w.state ++ [h.node] }
    Script.perform (Call.dispatch h)

def blockOf (statements : List NodeId) (entered : List NodeId) : World (List NodeId) where
  arena := .ofList [⟨.block, (statements, ()), .dummy⟩, ⟨.noopStatement, (), .dummy⟩,
    ⟨.breakStatement, (), .dummy⟩]
  log := #[]
  state := entered

theorem keeping_agrees_insertingPass :
    insertingPass.keeping.run 40 (.enter ⟨.statement, ⟨0⟩⟩) ((blockOf [⟨1⟩] []).counted 7) =
        some (.ok ⟨0⟩, (blockOf [⟨1⟩, ⟨2⟩] [⟨0⟩, ⟨1⟩, ⟨2⟩]).counted 7) ∧
      calls (insertingPass.keeping.history 40 (.enter ⟨.statement, ⟨0⟩⟩)
          ((blockOf [⟨1⟩] []).counted 7)) =
        calls (insertingPass.history 40 (.enter ⟨.statement, ⟨0⟩⟩) (blockOf [⟨1⟩] [])) := by
  have agrees := keeping_agrees insertingPass (fun _ => rfl) 7 40 (.enter ⟨.statement, ⟨0⟩⟩)
    (blockOf [⟨1⟩] [])
  have visited : insertingPass.run 40 (.enter ⟨.statement, ⟨0⟩⟩) (blockOf [⟨1⟩] []) =
      some (.ok (), blockOf [⟨1⟩, ⟨2⟩] [⟨0⟩, ⟨1⟩, ⟨2⟩]) := by
    rfl
  rw [visited] at agrees
  exact ⟨agrees.1, agrees.2.1⟩

end ProgramTree
