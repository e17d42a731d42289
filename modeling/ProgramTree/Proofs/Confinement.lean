import ProgramTree.Proofs.Conduct
import ProgramTree.Proofs.Likeness

/-!
What a transforming pass leaves alone. Code runs in stretches, each from a call or a reply to the next.
The stretches of the engine add no node and change nothing but the handles in occupied child slots.
Handlers are modest if in their own stretches they do no more than allocate nodes and run other passes
with modest handlers. When they are, the whole run adds the nodes that they have allocated, and all
nodes stay alike (`Transformer.modest_runs_keep_payload`).
-/

namespace ProgramTree

def Arena.Stays (a b : Arena) : Prop :=
  a.GrowsBy [] b

theorem Arena.Stays.grows {a b : Arena} (stays : a.Stays b) : a.Grows b :=
  ⟨[], stays⟩

section Within

variable {s κ ι α β : Type} {ρ : κ → Type} {τ : ι → Type}

/-- From the arena `a` on, each stretch of the code changes the arena as `own` says, as long as its calls
make the arena no more than grow. -/
inductive Next.Within (own : Arena → Arena → Prop) {α : Type} : Arena → Next (World s) ρ α → Prop where
  | finish {a : Arena} {r : Except Fault α} {w : World s} :
      own a w.arena → Within own a (.finish r w)
  | call {a : Arena} {c : κ} {w : World s}
      {resume : Except Fault (ρ c) → World s → Next (World s) ρ α} :
      own a w.arena → (∀ r w', w.arena.Grows w'.arena → Within own w'.arena (resume r w')) →
      Within own a (.call c w resume)

namespace Next.Within

variable {own own' : Arena → Arena → Prop} {a b : Arena} {w : World s}

theorem mono {next : Next (World s) ρ α} (within : next.Within own a)
    (weaker : ∀ a b, own a b → own' a b) : next.Within own' a := by
  induction within with
  | finish holds => exact .finish (weaker _ _ holds)
  | call holds _ ih => exact .call (weaker _ _ holds) ih

theorem embed {next : Next (World s) ρ α} (within : next.Within own a) :
    (next.embed : Next (World s) (TaskReply ρ τ) α).Within own a := by
  induction within with
  | finish holds => exact .finish holds
  | call holds _ ih => exact .call holds ih

theorem after {next : Next (World s) ρ α} (stays : a.Stays b) (within : next.Within Arena.Stays b) :
    next.Within Arena.Stays a := by
  cases within with
  | finish holds => exact .finish (stays.trans holds)
  | call holds rest => exact .call (stays.trans holds) rest

theorem bind {next : Next (World s) ρ α} {f : α → Script (World s) ρ β}
    (first : next.Within Arena.Stays a) (second : ∀ x w, (f x w).Within Arena.Stays w.arena) :
    (next.bind f).Within Arena.Stays a := by
  induction first with
  | @finish a r w holds =>
    cases r with
    | ok x => exact (second x w).after holds
    | error e => exact .finish holds
  | call holds _ ih => exact .call holds ih

theorem perform (c : κ) : (Script.perform c w : Next (World s) ρ (ρ c)).Within Arena.Stays w.arena :=
  .call (.refl _) fun _ _ _ => .finish (.refl _)

theorem read {f : World s → Except Fault α} {g : α → Script (World s) ρ β}
    (reads : ∀ x, f w = .ok x → (g x w).Within Arena.Stays w.arena) :
    ((Script.read f >>= g) w).Within Arena.Stays w.arena := by
  rw [Script.bind_apply, Script.read]
  cases found : f w with
  | ok x => exact reads x found
  | error e => exact .finish (.refl _)

theorem forM {f : β → Script (World s) ρ Unit} (each : ∀ b w, (f b w).Within Arena.Stays w.arena) :
    (items : List β) → (w : World s) → (items.forM f w).Within Arena.Stays w.arena
  | [], _ => .finish (.refl _)
  | b :: items, w => (each b w).bind fun _ w' => forM each items w'

end Next.Within

end Within

section Engines

variable {σ : Type} {w : World σ}

/-- A place that was occupied when it was read still is, whatever has happened since. -/
theorem World.occupied_of_grows {t : Tag} {owner : NodeId} {k i : Nat} {old : NodeId} {w w' : World σ}
    (reads : World.place? t owner k i w = .ok (some (some old))) (grows : w.arena.Grows w'.arena) :
    ∃ n id, w'.arena.node owner = .ok n ∧ n.tag = t ∧ n.place? k i = some (some id) := by
  cases got : w.arena.get t owner with
  | error e => simp [World.place?, got, Except.map] at reads
  | ok record =>
    obtain ⟨n, stored, rfl⟩ := Arena.node_of_get got
    rw [World.place?_of_node stored] at reads
    obtain ⟨m, stored', alike⟩ := grows.node stored
    obtain ⟨id, there⟩ := alike.occupied (Except.ok.inj reads)
    exact ⟨m, id, stored', alike.tag, there⟩

theorem World.fill_stays {t : Tag} {owner : NodeId} {k i : Nat} {old : NodeId} {w w' : World σ}
    (reads : World.place? t owner k i w = .ok (some (some old))) (grows : w.arena.Grows w'.arena)
    (new : NodeId) : w'.arena.Stays (World.fill t owner k i new w').2.arena := by
  obtain ⟨n, id, stored, rfl, there⟩ := World.occupied_of_grows reads grows
  rw [World.fill_of_node stored there]
  exact .put stored (Node.alike_fill there new)

theorem Visitor.visitPlace_within (c : Category) (place : Option NodeId) (w : World σ) :
    (visitPlace c place w).Within Arena.Stays w.arena := by
  cases place with
  | none => exact .finish (.refl _)
  | some id => exact .perform _

theorem Visitor.walkLane_within (v : Visitor σ) (t : Tag) (owner : NodeId) (lane : Lane) (k : Nat)
    (w : World σ) : (v.walkLane t owner lane k w).Within Arena.Stays w.arena := by
  rw [Visitor.walkLane]
  cases lane.arity with
  | one => exact .read fun _ _ => visitPlace_within _ _ _
  | many =>
    refine .read fun policy _ => ?_
    cases policy with
    | live => exact .perform _
    | snapshot => exact .read fun items _ => .forM (visitPlace_within _) items w

theorem Visitor.loop_within (v : Visitor σ) (loop : Loop) (w : World σ) :
    (v.body (.inr loop) w).Within Arena.Stays w.arena := by
  refine .read fun place _ => ?_
  cases place with
  | none => exact .finish (.refl _)
  | some place => exact (visitPlace_within _ place w).bind fun _ _ => .perform _

namespace Transformer

variable {σ : Type} {w : World (Tally σ)}

theorem replace_within {α : Type} {kept stored dropped : Task σ α} {t : Tag} {owner : NodeId}
    {k i : Nat} {c : Category} {place : Option NodeId}
    (reads : World.place? t owner k i w = .ok (some place))
    (keep : ∀ w, (kept w).Within Arena.Stays w.arena)
    (store : ∀ w, (stored w).Within Arena.Stays w.arena)
    (drop : ∀ w, (dropped w).Within Arena.Stays w.arena) :
    ((do
      let new ← replacePlace c place
      if new = place then kept
      else if ← Script.step ((Access.lane t owner k).write i new) then stored
      else dropped : Task σ α) w).Within Arena.Stays w.arena := by
  cases place with
  | none => exact keep w
  | some old =>
    refine .call (.refl _) fun reply w' grows => ?_
    cases reply with
    | error e => exact .finish (.refl _)
    | ok new =>
      change Next.Within _ _ ((if some new = some old then kept else _ : Task σ α) w')
      split
      · exact keep w'
      · have stays := World.fill_stays reads grows new
        rw [Script.bind_apply, Script.step, Access.lane]
        dsimp only
        generalize World.fill t owner k i new w' = outcome at stays
        obtain ⟨result, w''⟩ := outcome
        cases result with
        | error e => exact .finish stays
        | ok fits =>
          cases fits with
          | true => exact (store w'').after stays
          | false => exact (drop w'').after stays

theorem count_within (n : Nat) (w : World (Tally σ)) : (count n w).Within Arena.Stays w.arena :=
  .finish (.refl _)

theorem walkLane_within (t : Tag) (owner : NodeId) (lane : Lane) (k : Nat) (w : World (Tally σ)) :
    (walkLane t owner lane k w).Within Arena.Stays w.arena := by
  rw [walkLane]
  cases lane.arity with
  | one =>
    refine .read fun place reads => ?_
    cases place with
    | none => exact .finish (.refl _)
    | some place =>
      exact replace_within reads (fun _ => .finish (.refl _)) (count_within 1) fun _ => .finish (.refl _)
  | many => exact (Next.Within.perform _).bind count_within

theorem loop_within (r : Transformer σ) (loop : Loop) (w : World (Tally σ)) :
    (r.body (.inr loop) w).Within Arena.Stays w.arena := by
  refine .read fun place reads => ?_
  cases place with
  | none => exact .finish (.refl _)
  | some place =>
    refine replace_within reads (fun _ => .perform _) (fun _ => .perform _) fun w => ?_
    exact (Next.Within.finish (.refl _)).bind fun _ _ => .perform _

end Transformer

end Engines

section Machine

variable {s κ : Type} {ρ : κ → Type} {goal : κ}

/-- The world at the end of the stretch that has just been run. -/
def Config.world {ω : Type} (config : Config ω ρ goal) : ω :=
  match config.next with
  | .finish _ w => w
  | .call _ w _ => w

/-- How a stretch of the task may change the arena: handlers add nodes, the engine adds none. -/
def Arena.GainsIn (handled : κ → Bool) (task : κ) (a b : Arena) : Prop :=
  a.GrowsBy (if handled task then a.since b else []) b

theorem Arena.GainsIn.grows {handled : κ → Bool} {task : κ} {a b : Arena}
    (gains : a.GainsIn handled task b) : a.Grows b :=
  ⟨_, gains⟩

/-- The nodes that are added in the stretches of handlers, in order. The stretch that has just been run
began in the arena `before`. -/
def Machine.gained (handled : κ → Bool) (body : (task : κ) → Script (World s) ρ (ρ task)) :
    Nat → (before : Arena) → Config (World s) ρ goal → List Node
  | 0, _, _ => []
  | steps + 1, before, config =>
    (if handled config.call then before.since config.world.arena else []) ++
      match step body config with
      | .inl next => gained handled body steps config.world.arena next
      | .inr _ => []

/-- What waits for replies goes on in stretches of its own kind, however the arena `a` grows. -/
def Stack.Waits (handled : κ → Bool) (a : Arena) : {task : κ} → Stack (World s) ρ goal task → Prop
  | _, .done => True
  | _, .push (d := caller) _ resume rest =>
    (∀ r w, a.Grows w.arena → (resume r w).Within (Arena.GainsIn handled caller) w.arena) ∧
      rest.Waits handled a

theorem Stack.Waits.later {handled : κ → Bool} {a b : Arena} {task : κ} {stack : Stack (World s) ρ goal task}
    (waits : stack.Waits handled a) (grows : a.Grows b) : stack.Waits handled b := by
  induction stack with
  | done => exact trivial
  | push c resume rest ih => exact ⟨fun r w further => waits.1 r w (grows.trans further), ih waits.2⟩

/-- If every stretch is of the kind of its task, the arena grows by what the handlers have gained. -/
theorem Machine.growsBy_gained {handled : κ → Bool} {body : (task : κ) → Script (World s) ρ (ρ task)}
    (within : ∀ task w, (body task w).Within (Arena.GainsIn handled task) w.arena) (steps : Nat) :
    ∀ {before : Arena} {task : κ} {next : Next (World s) ρ (ρ task)} {stack : Stack (World s) ρ goal task}
      {r : Except Fault (ρ goal)} {w' : World s},
      next.Within (Arena.GainsIn handled task) before → stack.Waits handled before →
      finish body steps ⟨next, stack⟩ = some (r, w') →
        before.GrowsBy (gained handled body steps before ⟨next, stack⟩) w'.arena := by
  induction steps with
  | zero => intro _ _ _ _ _ _ _ _ done; cases done
  | succ steps ih =>
    intro before task next stack r w' running waits done
    rw [finish] at done
    cases running with
    | @finish _ reply w gains =>
      cases stack with
      | done =>
        cases done
        exact gains.trans (.refl _)
      | push c resume rest =>
        refine gains.trans (ih (waits.1 reply w gains.grows) ?_ done)
        exact waits.2.later gains.grows
    | @call _ c w resume gains resumes =>
      refine gains.trans (ih (within c w) ?_ done)
      exact ⟨resumes, waits.later gains.grows⟩

theorem Machine.growsBy_of_run {handled : κ → Bool} {body : (task : κ) → Script (World s) ρ (ρ task)}
    (within : ∀ task w, (body task w).Within (Arena.GainsIn handled task) w.arena) {steps : Nat} {c : κ}
    {w w' : World s} {r : Except Fault (ρ c)} (done : run body steps c w = some (r, w')) :
    w.arena.GrowsBy (gained handled body steps w.arena ⟨body c w, .done⟩) w'.arena :=
  growsBy_gained within steps (within c w) trivial done

end Machine

mutual

/-- What code can make of an arena that allocates nodes and runs passes with modest handlers. -/
inductive Arena.Worked : Arena → Arena → Prop where
  | refl (a : Arena) : Arena.Worked a a
  | alloc {a b : Arena} (n : Node) : Arena.Worked a b → Arena.Worked a (b.alloc n).2
  | visited {a : Arena} {σ : Type} {v : Visitor σ} {steps : Nat} {c : Call} {w w' : World σ}
      {result : Except Fault Unit} : Arena.Worked a w.arena →
      (∀ h w, Next.Modest w.arena (v.enter h w)) → (∀ t id w, Next.Modest w.arena (v.method t id w)) →
      v.run steps c w = some (result, w') → Arena.Worked a w'.arena
  | transformed {a : Arena} {σ : Type} {r : Transformer σ} {steps : Nat} {c : Call}
      {w w' : World (Tally σ)} {result : Except Fault (Transformer.Reply c)} : Arena.Worked a w.arena →
      (∀ h w, Next.Modest w.arena (r.enter h w)) → (∀ t id w, Next.Modest w.arena (r.method t id w)) →
      r.run steps c w = some (result, w') → Arena.Worked a w'.arena

/-- Code of a handler that works so between its calls, from the arena `a` on. It may call what it likes
and do as it likes with the replies, and it ends with any result. -/
inductive Next.Modest : {s α : Type} → {ρ : Call → Type} → Arena → Next (World s) ρ α → Prop where
  | finish {s α : Type} {ρ : Call → Type} {a : Arena} {r : Except Fault α} {w : World s} :
      Arena.Worked a w.arena → Next.Modest a (.finish r w : Next (World s) ρ α)
  | call {s α : Type} {ρ : Call → Type} {a : Arena} {c : Call} {w : World s}
      {resume : Except Fault (ρ c) → World s → Next (World s) ρ α} :
      Arena.Worked a w.arena → (∀ r w', Next.Modest w'.arena (resume r w')) →
      Next.Modest a (.call c w resume)

end

/-- Handlers have stretches in the tasks that begin with them. -/
def Call.handled : Call → Bool
  | .enter _ | .dispatch _ => true
  | .walk .. => false

def handledTask {ι : Type} : Call ⊕ ι → Bool :=
  Sum.elim Call.handled fun _ => false

section Tasks

variable {σ ι α : Type} {ρ : Call → Type} {τ : ι → Type}

theorem Next.Within.handler {next : Next (World σ) ρ α} {a : Arena} {c : Call}
    (within : next.Within Arena.Grows a) (handled : c.handled = true) :
    (next.embed : Next (World σ) (TaskReply ρ τ) α).Within
      (Arena.GainsIn handledTask (.inl c : Call ⊕ ι)) a := by
  refine within.embed.mono fun a b grows => ?_
  obtain ⟨fresh, grows⟩ := grows
  rw [Arena.GainsIn, handledTask, Sum.elim_inl, if_pos handled]
  exact grows.since

theorem Next.Within.dispatched {h : Handle} {method : Tag → Script (World σ) ρ α} (w : World σ)
    (within : ∀ t w, (method t w).Within Arena.Grows w.arena) :
    ((Script.step (World.classify h) >>= fun t => (method t).embed :
      Script (World σ) (TaskReply ρ τ) α) w).Within
        (Arena.GainsIn handledTask (.inl (.dispatch h) : Call ⊕ ι)) w.arena := by
  have arena := (World.classify_frame h w).1
  rw [Script.bind_apply, Script.step]
  generalize World.classify h w = found at arena
  obtain ⟨result, w'⟩ := found
  dsimp only at arena
  rw [← arena]
  cases result with
  | ok t => exact (within t w').handler rfl
  | error e => exact .finish (Arena.GrowsBy.refl _).since

theorem Visitor.body_within {v : Visitor σ} (enter : ∀ h w, (v.enter h w).Within Arena.Grows w.arena)
    (method : ∀ t id w, (v.method t id w).Within Arena.Grows w.arena) :
    ∀ task w, (v.body task w).Within (Arena.GainsIn handledTask task) w.arena
  | .inl (.enter h), w => (enter h w).handler rfl
  | .inl (.dispatch h), w => .dispatched w fun t => method t h.node
  | .inl (.walk t owner), w => .forM (fun (lane, k) => v.walkLane_within t owner lane k) _ w
  | .inr loop, w => v.loop_within loop w

theorem Transformer.body_within {r : Transformer σ}
    (enter : ∀ h w, (r.enter h w).Within Arena.Grows w.arena)
    (method : ∀ t id w, (r.method t id w).Within Arena.Grows w.arena) :
    ∀ task w, (r.body task w).Within (Arena.GainsIn handledTask task) w.arena
  | .inl (.enter h), w => (enter h w).handler rfl
  | .inl (.dispatch h), w => .dispatched w fun t => method t h.node
  | .inl (.walk t owner), w => .forM (fun (lane, k) => walkLane_within t owner lane k) _ w
  | .inr loop, w => r.loop_within loop w

end Tasks

mutual

theorem Arena.Worked.grows {a b : Arena} : Arena.Worked a b → a.Grows b
  | .refl a => .refl a
  | .alloc n worked => worked.grows.alloc n
  | .visited worked enter method done =>
    worked.grows.trans ⟨_, Machine.growsBy_of_run (Visitor.body_within
      (fun h w => (enter h w).within) fun t id w => (method t id w).within) done⟩
  | .transformed worked enter method done =>
    worked.grows.trans ⟨_, Machine.growsBy_of_run (Transformer.body_within
      (fun h w => (enter h w).within) fun t id w => (method t id w).within) done⟩

theorem Next.Modest.within {s α : Type} {ρ : Call → Type} {a : Arena} {next : Next (World s) ρ α} :
    Next.Modest a next → next.Within Arena.Grows a
  | .finish worked => .finish worked.grows
  | .call worked rest => .call worked.grows fun r w' _ => (rest r w').within

end

namespace Transformer

variable {σ : Type}

structure Modest (r : Transformer σ) : Prop where
  enter : ∀ h w, Next.Modest w.arena (r.enter h w)
  method : ∀ t id w, Next.Modest w.arena (r.method t id w)

/-- The nodes that the handlers have added in a run, as they were when their handler made its next call
or came to its end. -/
def allocated (r : Transformer σ) (steps : Nat) (c : Call) (w : World (Tally σ)) : List Node :=
  Machine.gained handledTask r.body steps w.arena
    (⟨r.body (.inl c) w, .done⟩ : Config _ _ (Sum.inl c : Call ⊕ Loop))

/-- From any arena, for any call and for the transformation of a whole tree, whether it succeeds or
fails: if the handlers are modest, then the arena afterwards has the nodes from before and those that
the handlers have allocated, and the nodes have kept all but the handles in occupied child slots. -/
theorem modest_runs_keep_payload (r : Transformer σ) (modest : r.Modest) :
    (∀ steps c w result w', r.run steps c w = some (result, w') →
      w.arena.GrowsBy (r.allocated steps c w) w'.arena) ∧
    (∀ steps root w result w', r.transform steps root w = some (result, w') →
      w.arena.GrowsBy
        (r.allocated steps (.enter ⟨.module, root⟩) (w.note (.started .transform root))) w'.arena) := by
  have calls : ∀ steps c w result w', r.run steps c w = some (result, w') →
      w.arena.GrowsBy (r.allocated steps c w) w'.arena := by
    intro steps c w result w' done
    refine Machine.growsBy_of_run (body_within (fun h w => ?_) fun t id w => ?_) done
    · exact (modest.enter h w).within
    · exact (modest.method t id w).within
  refine ⟨calls, fun steps root w result w' done => ?_⟩
  obtain ⟨reply, last, run, outcome⟩ := transform_cases done
  have grows := calls _ _ _ _ _ run
  rcases outcome with ⟨_, -, -, rfl⟩ | ⟨_, -, -, rfl⟩
  · exact grows
  · exact grows

/-- A pass that puts a new constant in the place of every expression. -/
def refreshing (constant : Node) : Transformer Unit where
  enter h := do
    let kept ← Script.perform (Call.dispatch h)
    if h.category = .expression then
      Script.step fun w =>
        let (id, a) := w.arena.alloc constant
        (.ok id, { w with arena := a })
    else
      return kept

theorem refreshing_modest (constant : Node) : (refreshing constant).Modest where
  enter h w := by
    refine .call (.refl _) fun reply w' => ?_
    cases reply with
    | error e => exact .finish (.refl _)
    | ok kept =>
      change Next.Modest _ ((if h.category = .expression then _ else _ : Code Unit NodeId) w')
      split
      · exact .finish (.alloc constant (.refl _))
      · exact .finish (.refl _)
  method t id w := by
    refine .call (.refl _) fun reply w' => ?_
    cases reply with
    | error e => exact .finish (.refl _)
    | ok _ => exact .finish (.refl _)

def intNode (value : Int64) : Node :=
  ⟨.constant, (.int value, ()), .dummy⟩

/-- An endpoint of two sample types, the second of which is also its size, and then some constants. In its
path one place is empty and one leads nowhere. -/
def refreshSample (first second size : NodeId) (constants : List Node) (replaced : UInt64) :
    World (Tally Unit) where
  arena := .ofList
    (⟨.endpointDeclaration, ("out", .output, some ⟨.stream, [first, second], some size⟩,
        some [⟨"first", none⟩, ⟨"second", some ⟨9⟩⟩], none, ()), ⟨3, 8⟩⟩ :: constants)
  log := #[]
  state := ⟨replaced, ()⟩

theorem modest_runs_keep_refreshSample :
    (refreshing (intNode 2)).run 40 (.enter ⟨.object, ⟨0⟩⟩)
        (refreshSample ⟨1⟩ ⟨2⟩ ⟨2⟩ [intNode 1, intNode 1] 0) =
      some (.error (.danglingHandle ⟨9⟩ 6),
        refreshSample ⟨3⟩ ⟨4⟩ ⟨5⟩ [intNode 1, intNode 1, intNode 2, intNode 2, intNode 2] 3) ∧
      (refreshSample ⟨1⟩ ⟨2⟩ ⟨2⟩ [intNode 1, intNode 1] 0).arena.GrowsBy
        [intNode 2, intNode 2, intNode 2]
        (refreshSample ⟨3⟩ ⟨4⟩ ⟨5⟩ [intNode 1, intNode 1, intNode 2, intNode 2, intNode 2] 3).arena := by
  have done : (refreshing (intNode 2)).run 40 (.enter ⟨.object, ⟨0⟩⟩)
      (refreshSample ⟨1⟩ ⟨2⟩ ⟨2⟩ [intNode 1, intNode 1] 0) =
        some (.error (.danglingHandle ⟨9⟩ 6),
          refreshSample ⟨3⟩ ⟨4⟩ ⟨5⟩ [intNode 1, intNode 1, intNode 2, intNode 2, intNode 2] 3) := by
    rfl
  have gained : (refreshing (intNode 2)).allocated 40 (.enter ⟨.object, ⟨0⟩⟩)
      (refreshSample ⟨1⟩ ⟨2⟩ ⟨2⟩ [intNode 1, intNode 1] 0) = [intNode 2, intNode 2, intNode 2] := by
    rfl
  have grows := (modest_runs_keep_payload _ (refreshing_modest (intNode 2))).1 40 _ _ _ _ done
  rw [gained] at grows
  exact ⟨done, grows⟩

end Transformer

end ProgramTree
