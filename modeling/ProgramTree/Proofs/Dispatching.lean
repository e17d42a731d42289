import ProgramTree.Proofs.Contract
import ProgramTree.Proofs.Onlooking
import ProgramTree.Proofs.Traversal

/-!
The law of dispatch. The scribe takes down every entry point and every method that it comes to. In its
notes each entry of a good handle is followed by the method for the variant of the node, and an entry of
any other handle is the last note of a run that fails for what is wrong with the handle. Methods are noted
in no other way. This holds in both engines, which take down the same, after any number of steps and so
of runs that never end as well (`scribe_notes_dispatch`).
-/

namespace ProgramTree

inductive Note where
  | entry (h : Handle)
  | method (t : Tag) (h : Handle)
  deriving DecidableEq

def entries (notes : List Note) : List Handle :=
  notes.filterMap fun
    | .entry h => some h
    | .method .. => none

/-- The pass that notes all its calls and is otherwise the default pass. -/
def Visitor.scribe (policy : Policy) : Visitor (List Note) :=
  onlooker policy (fun h notes => notes ++ [.entry h])
    fun t id notes => notes ++ [.method t ⟨t.category, id⟩]

def Transformer.scribe : Transformer (List Note) :=
  onlooker (fun h notes => notes ++ [.entry h]) fun t id notes => notes ++ [.method t ⟨t.category, id⟩]

def Transformer.recorder : Transformer (List Handle) where
  enter h := do
    Script.update fun w => { w with state := { w.state with own := w.state.own ++ [h] } }
    Script.perform (Call.dispatch h)

/-- Notes of methods that follow the entries of their nodes. The last entry may be open still. -/
inductive Arena.Noted (a : Arena) : List Note → Option Handle → Prop where
  | nil : Noted a [] none
  | entered (h : Handle) : Noted a [.entry h] (some h)
  | met {h : Handle} {n : Node} {rest : List Note} {last : Option Handle} :
      a.Shows h n → Noted a rest last → Noted a (.entry h :: .method n.tag h :: rest) last

namespace Arena.Noted

variable {a : Arena} {notes : List Note} {last : Option Handle} {h : Handle} {n : Node} {i : Nat}

theorem enter (noted : a.Noted notes none) (h : Handle) : a.Noted (notes ++ [.entry h]) (some h) := by
  generalize closed : none = last at noted
  induction noted with
  | nil => exact .entered h
  | entered => cases closed
  | met shown _ ih => exact .met shown (ih closed)

theorem meet (noted : a.Noted notes (some h)) (shown : a.Shows h n) :
    a.Noted (notes ++ [.method n.tag h]) none := by
  generalize opened : some h = last at noted
  induction noted with
  | nil => cases opened
  | entered =>
    cases opened
    exact .met shown .nil
  | met shown' _ ih => exact .met shown' (ih opened)

theorem entry (noted : a.Noted notes last) (here : notes[i]? = some (.entry h)) :
    (last = some h ∧ i + 1 = notes.length) ∨
      ∃ n, a.Shows h n ∧ notes[i + 1]? = some (.method n.tag h) := by
  induction noted generalizing i with
  | nil => cases here
  | entered =>
    rcases i with _ | i
    · cases here
      exact .inl ⟨rfl, rfl⟩
    · cases here
  | met shown _ ih =>
    rcases i with _ | _ | i
    · cases here
      exact .inr ⟨_, shown, rfl⟩
    · cases here
    · rcases ih here with ⟨opened, last⟩ | ⟨n, shown, next⟩
      · exact .inl ⟨opened, by simp only [List.length_cons]; omega⟩
      · exact .inr ⟨n, shown, next⟩

theorem method {t : Tag} (noted : a.Noted notes last) (here : notes[i]? = some (.method t h)) :
    ∃ j n, i = j + 1 ∧ notes[j]? = some (.entry h) ∧ a.Shows h n ∧ n.tag = t := by
  induction noted generalizing i with
  | nil => cases here
  | entered =>
    rcases i with _ | i
    · cases here
    · cases here
  | met shown _ ih =>
    rcases i with _ | _ | i
    · cases here
    · cases here
      exact ⟨0, _, rfl, rfl, shown, rfl⟩
    · obtain ⟨j, n, rfl, before, shown, tag⟩ := ih here
      exact ⟨j + 2, n, rfl, before, shown, tag⟩

end Arena.Noted

section Idle

variable {ω κ α β : Type} {ρ : κ → Type} {allowed : κ → Prop} {w : ω}

/-- Code that leaves the world as it is handed to it, calls only what is allowed, and fails when one of
its calls does. -/
inductive Next.Idle (allowed : κ → Prop) : ω → Next ω ρ α → Prop where
  | finish (r : Except Fault α) (w : ω) : Idle allowed w (.finish r w)
  | call {c : κ} {w : ω} {resume : Except Fault (ρ c) → ω → Next ω ρ α} :
      allowed c → (∀ r u, Idle allowed u (resume r u)) →
      (∀ e u, resume (.error e) u = .finish (.error e) u) → Idle allowed w (.call c w resume)

namespace Next.Idle

theorem bind {next : Next ω ρ α} {f : α → Script ω ρ β} (first : Next.Idle allowed w next)
    (second : ∀ a u, Next.Idle allowed u (f a u)) : Next.Idle allowed w (next.bind f) := by
  induction first with
  | finish r w =>
    cases r with
    | ok a => exact second a w
    | error e => exact .finish _ w
  | call may _ passes ih =>
    refine .call may ih fun e u => ?_
    rw [passes, Next.bind_finish_error]

theorem perform {c : κ} (may : allowed c) (w : ω) :
    Next.Idle allowed w (Script.perform c w : Next ω ρ (ρ c)) :=
  .call may (fun r u => .finish r u) fun _ _ => rfl

theorem read {f : ω → Except Fault α} {g : α → Script ω ρ β} (rest : ∀ a u, Next.Idle allowed u (g a u)) :
    Next.Idle allowed w ((Script.read f >>= g) w) :=
  bind (.finish (f w) w) rest

theorem forM {f : β → Script ω ρ PUnit} (each : ∀ b u, Next.Idle allowed u (f b u)) :
    (items : List β) → (w : ω) → Next.Idle allowed w (items.forM f w)
  | [], w => .finish _ w
  | b :: items, w => bind (each b w) fun _ u => forM each items u

theorem world {goal d : κ} {next : Next ω ρ (ρ d)} (idle : Next.Idle allowed w next)
    (stack : Stack ω ρ goal d) : Config.world ⟨next, stack⟩ = w := by
  cases idle <;> rfl

end Next.Idle

inductive Stack.Idle (allowed : κ → Prop) {goal : κ} : {c : κ} → Stack ω ρ goal c → Prop where
  | done : Idle allowed .done
  | push {c d : κ} {resume : Except Fault (ρ c) → ω → Next ω ρ (ρ d)} {rest : Stack ω ρ goal d} :
      (∀ r u, Next.Idle allowed u (resume r u)) →
      (∀ e u, resume (.error e) u = .finish (.error e) u) → Idle allowed rest →
      Idle allowed (.push c resume rest)

theorem Stack.Idle.finish (body : (c : κ) → Script ω ρ (ρ c)) {goal c : κ} {stack : Stack ω ρ goal c}
    (idle : stack.Idle allowed) (e : Fault) (w : ω) :
    ∃ steps, Machine.finish body steps ⟨.finish (.error e) w, stack⟩ = some (.error e, w) := by
  induction idle with
  | done => exact ⟨1, rfl⟩
  | @push c d resume rest _ passes _ ih =>
    obtain ⟨steps, done⟩ := ih
    refine ⟨steps + 1, ?_⟩
    rw [Machine.finish, Machine.step]
    dsimp only
    rw [passes, done]

end Idle

namespace Visitor

/-- What the engine itself has carried out. It leaves the dispatching to the entry points. -/
def EngineTask (task : Call ⊕ Loop) : Prop :=
  ∀ h, task ≠ .inl (.dispatch h)

variable {σ : Type} (v : Visitor σ)

theorem visitPlace_idle (c : Category) (place : Option NodeId) (w : World σ) :
    Next.Idle EngineTask w (visitPlace c place w) := by
  cases place with
  | none => exact .finish _ w
  | some child => exact .perform nofun w

theorem go_idle (loop : Loop) (w : World σ) : Next.Idle EngineTask w (loop.go w) :=
  .perform nofun w

theorem walkLane_idle (t : Tag) (owner : NodeId) (lane : Lane) (k : Nat) (w : World σ) :
    Next.Idle EngineTask w (v.walkLane t owner lane k w) := by
  unfold walkLane
  cases lane.arity with
  | one => exact .read fun place u => visitPlace_idle lane.category place.join u
  | many =>
    refine .read fun policy u => ?_
    cases policy with
    | live => exact go_idle _ u
    | snapshot => exact .read fun places u => .forM (visitPlace_idle lane.category) places u

theorem walk_idle (t : Tag) (owner : NodeId) (w : World σ) :
    Next.Idle EngineTask w (v.body (.inl (.walk t owner)) w) := by
  have lanes := Next.Idle.forM (fun (p : Lane × Nat) u => v.walkLane_idle t owner p.1 p.2 u)
    t.lanes.zipIdx w
  exact lanes

theorem loop_idle (loop : Loop) (w : World σ) : Next.Idle EngineTask w (v.body (.inr loop) w) := by
  refine .read fun place u => ?_
  cases place with
  | none => exact .finish _ u
  | some place => exact .bind (visitPlace_idle loop.category place u) fun _ u => go_idle _ u

def Scribed (a : Arena) (last : Option Handle) (w : World (List Note)) : Prop :=
  w.arena = a ∧ a.Noted w.state last

variable {a : Arena} {goal : Call ⊕ Loop}

abbrev Course (σ : Type) (goal : Call ⊕ Loop) : Type :=
  Config (World σ) (TaskReply Reply fun _ : Loop => Unit) goal ⊕
    (Except Fault (TaskReply Reply (fun _ : Loop => Unit) goal) × World σ)

/-- Where a run of the scribe can have come to. Between an entry and the method that belongs to it there
is nothing but the call to dispatch. -/
inductive Stage (a : Arena) : Course (List Note) goal → Prop where
  | idle {task : Call ⊕ Loop} {next : Next (World (List Note)) _ (TaskReply Reply (fun _ => Unit) task)}
      {stack : Stack (World (List Note)) _ goal task} {w : World (List Note)} :
      Scribed a none w → Next.Idle EngineTask w next → stack.Idle EngineTask →
      Stage a (.inl ⟨next, stack⟩)
  | entered {task : Call ⊕ Loop} {stack : Stack (World (List Note)) _ goal task} {h : Handle}
      {w : World (List Note)} {resume : Except Fault (Reply (.dispatch h)) → World (List Note) →
        Next (World (List Note)) _ (TaskReply Reply (fun _ => Unit) task)} :
      Scribed a (some h) w → (Stack.push (.inl (.dispatch h)) resume stack).Idle EngineTask →
      Stage a (.inl ⟨.call (.inl (.dispatch h)) w resume, stack⟩)
  | failed {task : Call ⊕ Loop} {stack : Stack (World (List Note)) _ goal task} {h : Handle} {e : Fault}
      {w : World (List Note)} :
      Scribed a (some h) w → a.Blames h e → stack.Idle EngineTask →
      Stage a (.inl ⟨.finish (.error e) w, stack⟩)
  | ended {r : Except Fault (TaskReply Reply (fun _ => Unit) goal)} {w : World (List Note)} :
      Scribed a none w → Stage a (.inr (r, w))
  | stopped {h : Handle} {e : Fault} {w : World (List Note)} :
      Scribed a (some h) w → a.Blames h e → Stage a (.inr (.error e, w))

theorem scribe_dispatch_of_shows (policy : Policy) {h : Handle} {n : Node} {w : World (List Note)}
    (scribed : Scribed a (some h) w) (shown : a.Shows h n) :
    (scribe policy).body (.inl (.dispatch h)) w =
      .call (.inl (.walk n.tag h.node)) { w with state := w.state ++ [.method n.tag h] }
        fun r u => .finish r u := by
  obtain ⟨rfl, -⟩ := scribed
  have handle : (⟨n.tag.category, h.node⟩ : Handle) = h := congrArg (Handle.mk · h.node) shown.2
  rw [body, Script.step_bind (World.classify_of_shows shown), ← handle]
  rfl

theorem scribe_dispatch_of_not_good (policy : Policy) {h : Handle} {w : World (List Note)}
    (scribed : Scribed a (some h) w) (bad : ¬ a.Good h) :
    ∃ e u, a.Blames h e ∧ Scribed a (some h) u ∧ u.state = w.state ∧
      (scribe policy).body (.inl (.dispatch h)) w = .finish (.error e) u := by
  obtain ⟨rfl, noted⟩ := scribed
  obtain ⟨e, u, blames, found⟩ := World.classify_of_not_good bad
  obtain ⟨arena, state⟩ := World.classify_frame h w
  rw [found] at arena state
  refine ⟨e, u, blames, ⟨arena, ?_⟩, state, ?_⟩
  · rwa [show u.state = w.state from state]
  · rw [body, Script.step_bind_error found]

namespace Stage

variable (policy : Policy)
  {x : Config (World (List Note)) (TaskReply Reply fun _ : Loop => Unit) goal}
  {stage : Course (List Note) goal}

theorem notes_kept {task : Call ⊕ Loop} {w : World (List Note)}
    {next : Next (World (List Note)) _ (TaskReply Reply (fun _ : Loop => Unit) task)}
    (idle : Next.Idle EngineTask w next) (stack : Stack (World (List Note)) _ goal task) :
    w.state <+: (Machine.worldOf (.inl ⟨next, stack⟩)).state := by
  rw [Machine.worldOf, Sum.elim_inl, idle.world]

/-- One step of a run that is not over. No note is lost. -/
theorem step (here : Stage a (.inl x)) :
    Stage a (Machine.step (scribe policy).body x) ∧
      x.world.state <+: (Machine.worldOf (Machine.step (scribe policy).body x)).state := by
  cases here with
  | @idle task next stack w scribed idle waiting =>
    rw [idle.world stack]
    cases idle with
    | finish r w =>
      cases waiting with
      | done => exact ⟨.ended scribed, List.prefix_rfl⟩
      | push resumes passes below =>
        exact ⟨.idle scribed (resumes r w) below, notes_kept (resumes r w) _⟩
    | @call task _ resume may resumes passes =>
      have below := Stack.Idle.push resumes passes waiting
      -- Of what the engine calls, only an entry point takes a note, and it goes on to dispatch at once.
      match task with
      | .inl (.dispatch h) => exact absurd rfl (may h)
      | .inl (.enter h) =>
        refine ⟨.entered ⟨scribed.1, scribed.2.enter h⟩ ?_, List.prefix_append _ _⟩
        exact .push .finish (fun _ _ => rfl) below
      | .inl (.walk t owner) =>
        have idle := walk_idle (scribe policy) t owner w
        exact ⟨.idle scribed idle below, notes_kept idle _⟩
      | .inr loop =>
        have idle := loop_idle (scribe policy) loop w
        exact ⟨.idle scribed idle below, notes_kept idle _⟩
  | @entered task stack h w resume scribed waiting =>
    by_cases good : a.Good h
    · obtain ⟨n, shown⟩ := good
      rw [Machine.step, scribe_dispatch_of_shows policy scribed shown]
      refine ⟨.idle (w := { w with state := w.state ++ [.method n.tag h] })
        ⟨scribed.1, scribed.2.meet shown⟩ ?_ waiting, List.prefix_append _ _⟩
      exact .call nofun .finish fun _ _ => rfl
    · obtain ⟨e, u, blames, scribed', same, fails⟩ := scribe_dispatch_of_not_good policy scribed good
      rw [Machine.step, fails]
      refine ⟨.failed scribed' blames waiting, ?_⟩
      change w.state <+: u.state
      rw [same]
  | failed scribed blames waiting =>
    cases waiting with
    | done => exact ⟨.stopped scribed blames, List.prefix_rfl⟩
    | push resumes passes below =>
      rw [Machine.step, passes]
      exact ⟨.failed scribed blames below, List.prefix_rfl⟩

theorem advance (here : Stage a stage) :
    Stage a (Sum.elim (Machine.step (scribe policy).body) .inr stage) ∧
      (Machine.worldOf stage).state <+:
        (Machine.worldOf (Sum.elim (Machine.step (scribe policy).body) .inr stage)).state := by
  cases stage with
  | inl x => exact here.step policy
  | inr o => exact ⟨here, List.prefix_rfl⟩

/-- No entry is open, or else the next step closes it if its handle is good, and the run is about to fail
if not. -/
theorem outlook (here : Stage a stage) :
    a.Noted (Machine.worldOf stage).state none ∨
    ∃ h, a.Noted (Machine.worldOf stage).state (some h) ∧
      (∀ n, a.Shows h n →
        (Machine.worldOf (Sum.elim (Machine.step (scribe policy).body) .inr stage)).state =
          (Machine.worldOf stage).state ++ [.method n.tag h]) ∧
      (¬ a.Good h → ∃ e u steps, a.Blames h e ∧ u.state = (Machine.worldOf stage).state ∧
        Sum.elim (Machine.finish (scribe policy).body steps) some stage = some (.error e, u)) := by
  cases here with
  | @idle _ _ stack _ scribed idle _ =>
    left
    rw [Machine.worldOf, Sum.elim_inl, idle.world]
    exact scribed.2
  | ended scribed => exact .inl scribed.2
  | @entered _ stack h w resume scribed waiting =>
    refine .inr ⟨h, scribed.2, fun n shown => ?_, fun bad => ?_⟩
    · rw [Sum.elim_inl, Machine.step, scribe_dispatch_of_shows policy scribed shown]
      rfl
    · obtain ⟨e, u, blames, -, same, fails⟩ := scribe_dispatch_of_not_good policy scribed bad
      obtain ⟨steps, done⟩ := waiting.finish (scribe policy).body e u
      refine ⟨e, u, steps + 1, blames, same, ?_⟩
      rw [Sum.elim_inl, Machine.finish, Machine.step, fails]
      exact done
  | @failed _ stack h e w scribed blames waiting =>
    refine .inr ⟨h, scribed.2, fun n shown => absurd ⟨n, shown⟩ blames.not_good, fun _ => ?_⟩
    obtain ⟨steps, done⟩ := waiting.finish (scribe policy).body e w
    exact ⟨e, w, steps, blames, rfl, done⟩
  | @stopped h e w scribed blames =>
    refine .inr ⟨h, scribed.2, fun n shown => absurd ⟨n, shown⟩ blames.not_good, fun _ => ?_⟩
    exact ⟨e, w, 0, blames, rfl, rfl⟩

end Stage

end Visitor

/-- The law of dispatch for notes taken down in the arena `a`: `notes` are those after a number of steps,
and `ending` is the result and the notes of a run that is over. -/
structure DispatchLaw (a : Arena) {α : Type} (notes : Nat → List Note)
    (ending : Nat → Option (Except Fault α × List Note)) : Prop where
  grows : ∀ steps, notes steps <+: notes (steps + 1)
  ended : ∀ steps r last, ending steps = some (r, last) → notes steps = last
  /-- One step after a good handle is entered at the latest, the method for its variant is noted next. -/
  good : ∀ steps i h n, (notes steps)[i]? = some (.entry h) → a.Shows h n →
    (notes (steps + 1))[i + 1]? = some (.method n.tag h)
  /-- The entry of a handle that is not good is the last note of a run that fails for it. -/
  bad : ∀ steps i h, (notes steps)[i]? = some (.entry h) → ¬ a.Good h →
    i + 1 = (notes steps).length ∧ ∃ e enough, a.Blames h e ∧ ending enough = some (.error e, notes steps)
  /-- A method is noted only right after the entry of its node, and so never after another method. -/
  method : ∀ steps i t h, (notes steps)[i]? = some (.method t h) →
    ∃ j n, i = j + 1 ∧ (notes steps)[j]? = some (.entry h) ∧ a.Shows h n ∧ n.tag = t

section Notes

variable {τ : Type} (a : Arena) (log : Array Event) (start : Handle)

/-- What a pass has noted after a number of steps from the entry of `start` on. -/
def Visitor.notes (v : Visitor (List τ)) (steps : Nat) : List τ :=
  (v.after steps (.enter start) ⟨a, log, []⟩).state

def Visitor.ending (v : Visitor (List τ)) (steps : Nat) : Option (Except Fault Unit × List τ) :=
  (v.run steps (.enter start) ⟨a, log, []⟩).map fun (r, u) => (r, u.state)

def Transformer.notes (r : Transformer (List τ)) (count : UInt64) (steps : Nat) : List τ :=
  (r.after steps (.enter start) ⟨a, log, ⟨count, []⟩⟩).state.own

def Transformer.ending (r : Transformer (List τ)) (count : UInt64) (steps : Nat) :
    Option (Except Fault NodeId × List τ) :=
  (r.run steps (.enter start) ⟨a, log, ⟨count, []⟩⟩).map fun (r, u) => (r, u.state.own)

end Notes

theorem getElem?_of_isPrefix {α : Type} {l l' : List α} {i : Nat} {x : α} (begins : l <+: l')
    (here : l[i]? = some x) : l'[i]? = some x := by
  obtain ⟨rest, rfl⟩ := begins
  rw [List.getElem?_append_left (List.getElem?_eq_some_iff.mp here).choose, here]

namespace Visitor

variable (a : Arena) (log : Array Event) (start : Handle) (policy : Policy)

theorem scribe_stage (steps : Nat) :
    Stage a (Machine.reach (scribe policy).body steps
      (⟨(scribe policy).body (.inl (.enter start)) ⟨a, log, []⟩, .done⟩ :
        Config _ _ (Sum.inl (Call.enter start) : Call ⊕ Loop))) := by
  induction steps with
  | zero => exact .entered ⟨rfl, .entered start⟩ (.push .finish (fun _ _ => rfl) .done)
  | succ steps ih =>
    rw [Machine.reach_succ]
    exact (ih.advance policy).1

/-- What has been noted, and what is noted one step later. -/
theorem scribe_outlook (steps : Nat) :
    a.Noted ((scribe policy).notes a log start steps) none ∨
    ∃ h, a.Noted ((scribe policy).notes a log start steps) (some h) ∧
      (∀ n, a.Shows h n → (scribe policy).notes a log start (steps + 1) =
        (scribe policy).notes a log start steps ++ [.method n.tag h]) ∧
      (¬ a.Good h → ∃ e enough, a.Blames h e ∧ (scribe policy).ending a log start enough =
        some (.error e, (scribe policy).notes a log start steps)) := by
  rcases (scribe_stage a log start policy steps).outlook policy with closed | ⟨h, opened, next, fails⟩
  · exact .inl closed
  · refine .inr ⟨h, opened, fun n shown => ?_, fun bad => ?_⟩
    · have later := next n shown
      rw [← Machine.reach_succ] at later
      exact later
    · obtain ⟨e, u, more, blames, same, done⟩ := fails bad
      refine ⟨e, steps + more, blames, ?_⟩
      rw [ending, run, Machine.run, Machine.finish_add, done]
      exact congrArg (fun notes => some (Except.error e, notes)) same

theorem scribe_notes_grow (steps : Nat) :
    (scribe policy).notes a log start steps <+: (scribe policy).notes a log start (steps + 1) := by
  have later := ((scribe_stage a log start policy steps).advance policy).2
  rw [← Machine.reach_succ] at later
  exact later

theorem scribe_dispatchLaw :
    DispatchLaw a ((scribe policy).notes a log start) ((scribe policy).ending a log start) where
  grows := scribe_notes_grow a log start policy
  ended steps r last done := by
    obtain ⟨⟨_, u⟩, ran, same⟩ := Option.map_eq_some_iff.mp done
    cases same
    exact congrArg World.state (Machine.after_of_run ran)
  good steps i h n here shown := by
    have grows := scribe_notes_grow a log start policy steps
    have found : ∀ n', a.Shows h n' →
        ((scribe policy).notes a log start steps)[i + 1]? = some (.method n'.tag h) →
        ((scribe policy).notes a log start (steps + 1))[i + 1]? = some (.method n.tag h) := by
      intro n' shown' next
      rw [shown.unique shown']
      exact getElem?_of_isPrefix grows next
    rcases scribe_outlook a log start policy steps with closed | ⟨h', opened, next, -⟩
    · rcases closed.entry here with ⟨none, -⟩ | ⟨n', shown', next⟩
      · cases none
      · exact found n' shown' next
    · rcases opened.entry here with ⟨same, last⟩ | ⟨n', shown', next⟩
      · cases same
        rw [next n shown, last, List.getElem?_concat_length]
      · exact found n' shown' next
  bad steps i h here bad := by
    rcases scribe_outlook a log start policy steps with closed | ⟨h', opened, -, fails⟩
    · rcases closed.entry here with ⟨none, -⟩ | ⟨n, shown, -⟩
      · cases none
      · exact absurd ⟨n, shown⟩ bad
    · rcases opened.entry here with ⟨same, last⟩ | ⟨n, shown, -⟩
      · cases same
        exact ⟨last, fails bad⟩
      · exact absurd ⟨n, shown⟩ bad
  method steps i t h here := by
    rcases scribe_outlook a log start policy steps with closed | ⟨h', opened, -, -⟩
    · exact closed.method here
    · exact opened.method here

theorem recorder_eq_onlooker :
    recorder policy ∅ = onlooker policy (fun h noted => noted ++ [h]) fun _ _ noted => noted := by
  rw [recorder, onlooker]
  congr

theorem entries_entry (notes : List Note) (h : Handle) :
    entries notes ++ [h] = entries (notes ++ [.entry h]) := by
  rw [entries, entries, List.filterMap_append]
  rfl

theorem entries_method (notes : List Note) (t : Tag) (h : Handle) :
    entries notes = entries (notes ++ [.method t h]) := by
  rw [entries, entries, List.filterMap_append]
  exact (List.append_nil _).symm

theorem recorder_notes (steps : Nat) :
    (recorder policy ∅).notes a log start steps = entries ((scribe policy).notes a log start steps) := by
  rw [recorder_eq_onlooker]
  refine congrArg World.state
    (onlooker_viewed_after (f := entries) ?_ ?_ policy steps (.enter start) ⟨a, log, []⟩)
  · exact fun h notes => entries_entry notes h
  · exact fun t _ notes => entries_method notes t _

theorem recorder_ending (steps : Nat) :
    (recorder policy ∅).ending a log start steps =
      ((scribe policy).ending a log start steps).map fun (r, notes) => (r, entries notes) := by
  have ran : (recorder policy ∅).run steps (.enter start) ⟨a, log, []⟩ =
      ((scribe policy).run steps (.enter start) ⟨a, log, []⟩).map fun (r, u) => (r, u.viewed entries) := by
    rw [recorder_eq_onlooker]
    refine onlooker_viewed_run (f := entries) ?_ ?_ policy steps (.enter start) ⟨a, log, []⟩
    · exact fun h notes => entries_entry notes h
    · exact fun t _ notes => entries_method notes t _
  rw [ending, ran, ending, Option.map_map, Option.map_map]
  rfl

end Visitor

namespace Transformer

variable {τ : Type} (a : Arena) (log : Array Event) (start : Handle) (count : UInt64)
  (entered : Handle → List τ → List τ) (met : Tag → NodeId → List τ → List τ) (steps : Nat)

theorem recorder_eq_onlooker :
    recorder = onlooker (fun h noted => noted ++ [h]) fun _ _ noted => noted :=
  rfl

theorem onlooker_notes :
    (onlooker entered met).notes a log start count steps =
      (Visitor.onlooker .live entered met).notes a log start steps :=
  congrArg (fun w => w.state.own)
    (onlooker_after entered met count steps (.enter start) ⟨a, log, []⟩)

theorem onlooker_ending :
    (onlooker entered met).ending a log start count steps =
      ((Visitor.onlooker .live entered met).ending a log start steps).map fun (r, notes) =>
        (r.map fun _ => start.node, notes) := by
  have ran := onlooker_run entered met count steps (.enter start) ⟨a, log, []⟩
  rw [ending, Visitor.ending, Option.map_map]
  refine (congrArg (Option.map _) ran).trans ?_
  rw [Option.map_map]
  rfl

end Transformer

/-- The law says nothing of what a run answers when it succeeds. -/
theorem DispatchLaw.map {a : Arena} {α β : Type} {notes : Nat → List Note}
    {ending : Nat → Option (Except Fault α × List Note)} (law : DispatchLaw a notes ending) (f : α → β) :
    DispatchLaw a notes fun steps => (ending steps).map fun (r, last) => (r.map f, last) where
  grows := law.grows
  ended steps r last done := by
    obtain ⟨_, ended, same⟩ := Option.map_eq_some_iff.mp done
    cases same
    exact law.ended steps _ _ ended
  good := law.good
  bad steps i h here bad := by
    obtain ⟨last, e, enough, blames, ended⟩ := law.bad steps i h here bad
    exact ⟨last, e, enough, blames, by rw [ended]; rfl⟩
  method := law.method

/-- In every arena and from every handle, the scribes of both engines keep the law of dispatch, under
either policy. Without the methods their notes are those of the recorders, and with them those of the one
engine are those of the other. -/
theorem scribe_notes_dispatch (a : Arena) (log : Array Event) (start : Handle) (count : UInt64) :
    (∀ policy, DispatchLaw a ((Visitor.scribe policy).notes a log start)
      ((Visitor.scribe policy).ending a log start)) ∧
    DispatchLaw a (Transformer.scribe.notes a log start count)
      (Transformer.scribe.ending a log start count) ∧
    (∀ policy steps,
      (Visitor.recorder policy ∅).notes a log start steps =
        entries ((Visitor.scribe policy).notes a log start steps) ∧
      (Visitor.recorder policy ∅).ending a log start steps =
        ((Visitor.scribe policy).ending a log start steps).map fun (r, notes) => (r, entries notes)) ∧
    (∀ steps,
      Transformer.recorder.notes a log start count steps =
        entries (Transformer.scribe.notes a log start count steps) ∧
      Transformer.recorder.ending a log start count steps =
        (Transformer.scribe.ending a log start count steps).map fun (r, notes) => (r, entries notes)) ∧
    ∀ steps,
      Transformer.scribe.notes a log start count steps =
        (Visitor.scribe .live).notes a log start steps ∧
      Transformer.scribe.ending a log start count steps =
        ((Visitor.scribe .live).ending a log start steps).map fun (r, notes) =>
          (r.map fun _ => start.node, notes) := by
  have notes (steps : Nat) : Transformer.scribe.notes a log start count steps =
      (Visitor.scribe .live).notes a log start steps := Transformer.onlooker_notes ..
  have ending (steps : Nat) : Transformer.scribe.ending a log start count steps =
      ((Visitor.scribe .live).ending a log start steps).map fun (r, notes) =>
        (r.map fun _ => start.node, notes) := Transformer.onlooker_ending ..
  refine ⟨Visitor.scribe_dispatchLaw a log start, ?_, fun policy steps => ?_, fun steps => ?_,
    fun steps => ⟨notes steps, ending steps⟩⟩
  · rw [funext notes, funext ending]
    exact (Visitor.scribe_dispatchLaw a log start .live).map _
  · exact ⟨Visitor.recorder_notes a log start policy steps, Visitor.recorder_ending a log start policy steps⟩
  · rw [notes, ending, Transformer.recorder_eq_onlooker, Transformer.onlooker_notes,
      Transformer.onlooker_ending, ← Visitor.recorder_eq_onlooker, Visitor.recorder_notes,
      Visitor.recorder_ending, Option.map_map, Option.map_map]
    exact ⟨rfl, rfl⟩

example :
    (Visitor.scribe .live).ending
        (.ofList [⟨.block, ([⟨1⟩, ⟨5⟩], ()), .dummy⟩, ⟨.noopStatement, (), .dummy⟩]) #[]
        ⟨.statement, ⟨0⟩⟩ 40 =
      some (.error (.danglingHandle ⟨5⟩ 2),
        [.entry ⟨.statement, ⟨0⟩⟩, .method .block ⟨.statement, ⟨0⟩⟩, .entry ⟨.statement, ⟨1⟩⟩,
          .method .noopStatement ⟨.statement, ⟨1⟩⟩, .entry ⟨.statement, ⟨5⟩⟩]) := by
  rfl

end ProgramTree
