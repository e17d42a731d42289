import ProgramTree.Proofs.Agreement
import ProgramTree.Proofs.Confinement
import ProgramTree.Proofs.Parallel

/-!
Passes that only look on. An onlooker notes what it is called for and does nothing else, in either engine
(`Visitor.onlooker`, `Transformer.onlooker`). What it has noted is known after any number of steps, also
of runs that never end: the engines agree on it (`Transformer.onlooker_after`), and an onlooker that
notes less than another has noted just its part of it (`Visitor.onlooker_viewed_after`).
-/

namespace ProgramTree

namespace Machine

variable {ω ω' κ κ' : Type} {ρ : κ → Type} {ρ' : κ' → Type} {goal : κ} {goal' : κ'}

/-- Where a run has come to after a number of steps. -/
def reach (body : (c : κ) → Script ω ρ (ρ c)) :
    Nat → Config ω ρ goal → Config ω ρ goal ⊕ (Except Fault (ρ goal) × ω)
  | 0, x => .inl x
  | steps + 1, x =>
    match step body x with
    | .inl y => reach body steps y
    | .inr outcome => .inr outcome

def worldOf : Config ω ρ goal ⊕ (Except Fault (ρ goal) × ω) → ω :=
  Sum.elim Config.world Prod.snd

/-- The world after a number of steps of the call `c`. -/
def after (body : (c : κ) → Script ω ρ (ρ c)) (steps : Nat) (c : κ) (w : ω) : ω :=
  worldOf (reach body steps (⟨body c w, .done⟩ : Config ω ρ c))

variable {body : (c : κ) → Script ω ρ (ρ c)} {body' : (c : κ') → Script ω' ρ' (ρ' c)}

theorem reach_succ (steps : Nat) (x : Config ω ρ goal) :
    reach body (steps + 1) x = Sum.elim (step body) .inr (reach body steps x) := by
  induction steps generalizing x with
  | zero =>
    rw [reach, reach]
    change _ = step body x
    cases step body x <;> rfl
  | succ steps ih =>
    rw [reach, reach]
    cases step body x with
    | inl y => exact ih y
    | inr o => rfl

theorem finish_add (steps more : Nat) (x : Config ω ρ goal) :
    finish body (steps + more) x = Sum.elim (finish body more) some (reach body steps x) := by
  induction steps generalizing x with
  | zero => rw [Nat.zero_add, reach, Sum.elim_inl]
  | succ steps ih =>
    rw [Nat.succ_add, finish, reach]
    cases step body x with
    | inl y => exact ih y
    | inr o => rfl

theorem reach_of_finish {steps : Nat} {x : Config ω ρ goal} {outcome : Except Fault (ρ goal) × ω}
    (done : finish body steps x = some outcome) : reach body steps x = .inr outcome := by
  have split : finish body (steps + 0) x = Sum.elim (finish body 0) some (reach body steps x) :=
    finish_add steps 0 x
  rw [Nat.add_zero, done] at split
  cases reached : reach body steps x with
  | inl y =>
    rw [reached] at split
    cases split
  | inr o =>
    rw [reached] at split
    exact congrArg Sum.inr (Option.some.inj split).symm

theorem after_of_run {steps : Nat} {c : κ} {w u : ω} {r : Except Fault (ρ c)}
    (done : run body steps c w = some (r, u)) : after body steps c w = u := by
  rw [after, reach_of_finish done]
  rfl

variable {k : Correspondence ω ω' ρ ρ'}

theorem reach_matches
    (bodies : ∀ c c', k.call c c' → Script.Matches k (k.reply c c') (body c) (body' c'))
    (steps : Nat) {x : Config ω ρ goal} {x' : Config ω' ρ' goal'} (configs : Config.Matches k x x') :
    Sum.LiftRel (Config.Matches k) (k.Outcome goal goal') (reach body steps x) (reach body' steps x') := by
  induction steps generalizing x x' with
  | zero => exact .inl configs
  | succ steps ih =>
    rcases step_matches bodies configs with ⟨y, y', left, right, next⟩ | ⟨o, o', left, right, ends⟩
    · simp only [reach, left, right]
      exact ih next
    · simp only [reach, left, right]
      exact .inr ends

theorem world_matches {x : Config ω ρ goal} {x' : Config ω' ρ' goal'} (configs : Config.Matches k x x') :
    k.world x.world x'.world := by
  obtain ⟨next, stack⟩ := x
  obtain ⟨next', stack'⟩ := x'
  have nexts : Next.Matches k _ next next' := configs.next
  cases nexts with
  | finish _ worlds => exact worlds
  | call _ worlds _ => exact worlds

/-- Runs in step are in corresponding worlds all the time. -/
theorem after_matches
    (bodies : ∀ c c', k.call c c' → Script.Matches k (k.reply c c') (body c) (body' c'))
    (steps : Nat) {c : κ} {c' : κ'} (calls : k.call c c') {w : ω} {w' : ω'}
    (worlds : k.world w w') : k.world (after body steps c w) (after body' steps c' w') := by
  have start : Config.Matches k (⟨body c w, .done⟩ : Config ω ρ c)
      (⟨body' c' w', .done⟩ : Config ω' ρ' c') := ⟨calls, bodies c c' calls w w' worlds, .done⟩
  have stages := reach_matches bodies steps start
  rw [after, after]
  generalize reach body steps _ = stage at stages ⊢
  generalize reach body' steps _ = stage' at stages ⊢
  cases stages with
  | inl configs => exact world_matches configs
  | inr ends => exact ends.2

end Machine

variable {σ σ' : Type}

def Visitor.after (v : Visitor σ) (steps : Nat) (c : Call) (w : World σ) : World σ :=
  Machine.after v.body steps (.inl c) w

def Transformer.after (r : Transformer σ) (steps : Nat) (c : Call) (w : World (Tally σ)) :
    World (Tally σ) :=
  Machine.after r.body steps (.inl c) w

/-- The pass that notes what it enters and the methods it comes to. -/
def Visitor.onlooker (policy : Policy) (entered : Handle → σ → σ) (met : Tag → NodeId → σ → σ) :
    Visitor σ where
  policy := fun _ => policy
  enter h := do
    Script.update fun w => { w with state := entered h w.state }
    Script.perform (Call.dispatch h)
  method t id := do
    Script.update fun w => { w with state := met t id w.state }
    Script.perform (Call.walk t id)

/-- The same as a transforming pass, which keeps every node. -/
def Transformer.onlooker (entered : Handle → σ → σ) (met : Tag → NodeId → σ → σ) : Transformer σ where
  enter h := do
    Script.update fun w => { w with state := { w.state with own := entered h w.state.own } }
    Script.perform (Call.dispatch h)
  method t id := do
    Script.update fun w => { w with state := { w.state with own := met t id w.state.own } }
    Script.perform (Call.walk t id)
    return id

section Engines

variable (entered : Handle → σ → σ) (met : Tag → NodeId → σ → σ) (n : UInt64)

theorem onlooker_bodies_match (task : Call ⊕ Visitor.Loop) (task' : Call ⊕ Transformer.Loop)
    (same : SameTask task task') :
    Script.Matches (sideBySide (fun _ : World σ => True) n)
      ((sideBySide (fun _ : World σ => True) n).reply task task')
      ((Visitor.onlooker .live entered met).body task) ((Transformer.onlooker entered met).body task') := by
  refine bodies_match (fun _ _ _ => trivial) _ _ (fun _ _ => rfl) ?_ ?_ task task' same
  · rintro h w w' ⟨-, rfl⟩
    exact .call (.call _) ⟨trivial, rfl⟩ fun _ _ _ _ results worlds => .finish results worlds
  · rintro t id w w' ⟨-, rfl⟩
    refine .call (.call _) ⟨trivial, rfl⟩ fun r r' u u' results worlds => ?_
    cases results with
    | ok _ => exact .finish (.ok rfl) worlds
    | error e => exact .finish (.error e) worlds

variable (steps : Nat) (c : Call) (w : World σ)

theorem Transformer.onlooker_run :
    (Transformer.onlooker entered met).run steps c (w.counted n) =
      ((Visitor.onlooker .live entered met).run steps c w).map fun (r, u) =>
        (r.map fun _ => Transformer.kept (.inl c), u.counted n) := by
  have worlds : (sideBySide (fun _ => True) n).world w (w.counted n) := ⟨trivial, rfl⟩
  have outcomes := (Machine.run_matches (onlooker_bodies_match entered met n) steps (SameTask.call c)
    worlds).1
  exact eq_map_of_rel (fun outcome outcome' ends => Prod.ext ends.1.eq_map ends.2.2) outcomes

theorem Transformer.onlooker_after :
    (Transformer.onlooker entered met).after steps c (w.counted n) =
      ((Visitor.onlooker .live entered met).after steps c w).counted n := by
  have worlds : (sideBySide (fun _ => True) n).world w (w.counted n) := ⟨trivial, rfl⟩
  exact (Machine.after_matches (onlooker_bodies_match entered met n) steps (SameTask.call c) worlds).2

end Engines

def World.viewed (f : σ → σ') (w : World σ) : World σ' :=
  ⟨w.arena, w.log, f w.state⟩

namespace Visitor

abbrev viewing (f : σ → σ') : Correspondence (World σ) (World σ')
    (TaskReply Reply fun _ : Loop => Unit) (TaskReply Reply fun _ : Loop => Unit) :=
  .same _ fun w w' => w' = w.viewed f

variable (f : σ → σ')

theorem viewing_shares : (viewing f).Shares where
  arena same := congrArg World.arena same
  note _ same := by rw [same]; rfl

theorem viewing_go (loop : Loop) : Script.Matches (viewing f) Eq loop.go loop.go :=
  .same_perform (Sum.inr loop)

theorem viewing_visitPlace (c : Category) (place : Option NodeId) :
    Script.Matches (viewing f) Eq (visitPlace c place) (visitPlace c place) := by
  cases place with
  | none => exact .pure rfl
  | some child => exact .same_perform (Sum.inl (Call.enter ⟨c, child⟩))

section Bodies

variable {f} {v : Visitor σ} {v' : Visitor σ'} (policy : ∀ s, v'.policy (f s) = v.policy s)

include policy

theorem viewing_walkLane (t : Tag) (owner : NodeId) (lane : Lane) (k : Nat) :
    Script.Matches (viewing f) Eq (v.walkLane t owner lane k) (v'.walkLane t owner lane k) := by
  unfold walkLane
  cases lane.arity with
  | one =>
    exact (viewing_shares f).place t owner k 0 fun place => viewing_visitPlace f lane.category place.join
  | many =>
    have asked : Script.Matches (viewing f) Eq (Script.read fun w => .ok (v.policy w.state))
        (Script.read fun w => .ok (v'.policy w.state)) := by
      refine .read ?_
      rintro w _ rfl
      exact .ok (policy w.state).symm
    refine .bind asked ?_
    rintro policy _ rfl
    cases policy with
    | live => exact viewing_go f ⟨t, owner, lane.category, k, 0⟩
    | snapshot =>
      refine .bind ((viewing_shares f).read fun a => (a.get t owner).map fun record =>
        (record.children t.fields)[k]?.getD []) ?_
      rintro places _ rfl
      exact .forM (viewing_visitPlace f lane.category) places

/-- Two passes with the same policy in a world and in its view are in step when their handlers are. -/
theorem viewing_bodies
    (enters : ∀ h, Script.Matches (viewing f) Eq (v.enter h).embed (v'.enter h).embed)
    (methods : ∀ t id, Script.Matches (viewing f) Eq (v.method t id).embed (v'.method t id).embed)
    (task : Call ⊕ Loop) : Script.Matches (viewing f) Eq (v.body task) (v'.body task) := by
  match task with
  | .inl (.enter h) => exact enters h
  | .inl (.dispatch h) => exact (viewing_shares f).dispatch h fun t => methods t h.node
  | .inl (.walk t owner) =>
    have lanes := Script.Matches.forM (fun p : Lane × Nat =>
      viewing_walkLane policy t owner p.1 p.2) t.lanes.zipIdx
    exact fun w w' worlds => lanes w w' worlds
  | .inr loop =>
    refine (viewing_shares f).place loop.t loop.owner loop.k loop.i fun place => ?_
    cases place with
    | none => exact .pure rfl
    | some place =>
      refine .bind (viewing_visitPlace f loop.category place) fun _ _ _ => ?_
      exact viewing_go f { loop with i := loop.i + 1 }

end Bodies

section Views

variable {f} {entered : Handle → σ → σ} {met : Tag → NodeId → σ → σ}
  {entered' : Handle → σ' → σ'} {met' : Tag → NodeId → σ' → σ'}
  (enters : ∀ h s, entered' h (f s) = f (entered h s)) (meets : ∀ t id s, met' t id (f s) = f (met t id s))
  (policy : Policy) (steps : Nat) (c : Call) (w : World σ)

include enters meets

theorem viewing_onlookers (task : Call ⊕ Loop) :
    Script.Matches (viewing f) Eq ((onlooker policy entered met).body task)
      ((onlooker policy entered' met').body task) := by
  have noted {c : Call} {w : World σ} {s : σ} {s' : σ'} (state : s' = f s) :
      Next.Matches (viewing f) Eq (Next.embed (.call c { w with state := s } .finish))
        (Next.embed (.call c { w.viewed f with state := s' } .finish)) := by
    subst state
    exact Script.Matches.same_perform (Sum.inl c) _ _ rfl
  refine viewing_bodies (f := f) (fun _ => ?_) ?_ ?_ task
  · rfl
  · rintro h w _ rfl
    exact noted (enters h w.state)
  · rintro t id w _ rfl
    exact noted (meets t id w.state)

/-- An onlooker that notes a part of what another one notes runs as that one does. -/
theorem onlooker_viewed_run :
    (onlooker policy entered' met').run steps c (w.viewed f) =
      ((onlooker policy entered met).run steps c w).map fun (r, u) => (r, u.viewed f) := by
  have outcomes := Machine.run_same (viewing_onlookers enters meets policy) steps (.inl c)
    (show w.viewed f = w.viewed f from rfl)
  exact eq_map_of_rel (fun outcome outcome' ends => Prod.ext ends.1 ends.2) outcomes

theorem onlooker_viewed_after :
    (onlooker policy entered' met').after steps c (w.viewed f) =
      ((onlooker policy entered met).after steps c w).viewed f :=
  Machine.after_matches (Correspondence.same_bodies (viewing_onlookers enters meets policy)) steps
    (show (viewing f).call (.inl c) (.inl c) from rfl) (show (viewing f).world w _ from rfl)

end Views

end Visitor

end ProgramTree
