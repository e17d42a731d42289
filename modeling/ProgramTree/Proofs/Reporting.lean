import ProgramTree.Proofs.Dispatching
import ProgramTree.Proofs.LiveLoop
import ProgramTree.Proofs.Placing
import ProgramTree.Proofs.Policies
import ProgramTree.Proofs.Rounds

/-!
What the log of a run tells of its outcome. A pass is discreet if its handlers log nothing themselves,
shorten no sequence and pass on the faults of dispatches. Then a dispatch that meets a node of another
category is the last thing that happens in a run: its report is the only one, and the run ends with the
same fault (`Machine.Reports.run`). So the log tells a fault that a dispatch has made from one that a
handler has raised, and the reports at the end of a transformation and of its rounds add up
(`discreet_runs_report`).
-/

namespace ProgramTree

namespace Arena

/-- All nodes of `a` are in `b`, of the same variant and with sequences that are not shorter. -/
def Spares (a b : Arena) : Prop :=
  ∀ id n, a.node id = .ok n → ∃ m, b.node id = .ok m ∧ m.tag = n.tag ∧
    ∀ k lane, n.tag.lanes[k]? = some lane → lane.arity = .many →
      (n.places k).length ≤ (m.places k).length

variable {a b c : Arena}

theorem Spares.refl (a : Arena) : a.Spares a :=
  fun _ n stored => ⟨n, stored, rfl, fun _ _ _ _ => Nat.le_refl _⟩

theorem Spares.trans (first : a.Spares b) (second : b.Spares c) : a.Spares c := by
  intro id n stored
  obtain ⟨m, stored', tag, long⟩ := first id n stored
  obtain ⟨l, stored'', tag', long'⟩ := second id m stored'
  refine ⟨l, stored'', tag'.trans tag, fun k lane here many => ?_⟩
  exact (long k lane here many).trans (long' k lane (by rwa [tag]) many)

theorem Steady.spares (steady : a.Steady b) : a.Spares b := by
  intro id n stored
  obtain ⟨m, stored', tag, same⟩ := steady id n stored
  exact ⟨m, stored', tag, fun k lane here many => by rw [same k lane here many]⟩

theorem spares_fill {owner : NodeId} {n : Node} {k i : Nat} {new : NodeId}
    (stored : a.node owner = .ok n) : a.Spares (a.put n.tag owner (n.fill k i new).record) := by
  intro id m stored'
  by_cases here : owner = id
  · subst here
    cases stored.symm.trans stored'
    refine ⟨n.fill k i new, node_put_self stored, rfl, fun k' _ _ _ => ?_⟩
    by_cases lane : k = k'
    · simp [← lane, Node.places_fill]
    · rw [Node.places_fill_ne lane]
  · exact ⟨m, (node_put_ne here).trans stored', rfl, fun _ _ _ _ => Nat.le_refl _⟩

end Arena

section Quiet

variable {σ κ ι α β : Type} {ρ : κ → Type} {τ : ι → Type} {allowed : κ → Prop} {log : Array Event}
  {a b : Arena}

/-- The fault is one that a dispatch makes, and it is the only one that was logged since. -/
def World.Tells (log : Array Event) (e : Fault) (w : World σ) : Prop :=
  ∃ c n t, e = .unknownNode c n t ∧ w.log = log.push (.unknownNode c n t)

/-- From the arena `a` on, the code logs nothing, shortens no sequence, and calls only what is allowed. A
fault that a call has logged is passed on. -/
inductive Next.Quiet (allowed : κ → Prop) (log : Array Event) : Arena → Next (World σ) ρ α → Prop where
  | finish {a : Arena} {r : Except Fault α} {w : World σ} :
      a.Spares w.arena → w.log = log → Quiet allowed log a (.finish r w)
  | call {a : Arena} {c : κ} {w : World σ}
      {resume : Except Fault (ρ c) → World σ → Next (World σ) ρ α} :
      allowed c → a.Spares w.arena → w.log = log →
      (∀ r u, w.arena.Spares u.arena → u.log = log → Quiet allowed log u.arena (resume r u)) →
      (∀ e u, u.Tells log e → ∃ u', resume (.error e) u = .finish (.error e) u' ∧ u'.Tells log e) →
      Quiet allowed log a (.call c w resume)

namespace Next.Quiet

theorem after {next : Next (World σ) ρ α} (spares : a.Spares b) (quiet : next.Quiet allowed log b) :
    next.Quiet allowed log a := by
  cases quiet with
  | finish kept same => exact .finish (spares.trans kept) same
  | call may kept same resumes passes => exact .call may (spares.trans kept) same resumes passes

theorem bind {next : Next (World σ) ρ α} {f : α → Script (World σ) ρ β}
    (first : next.Quiet allowed log a)
    (second : ∀ b u, u.log = log → (f b u).Quiet allowed log u.arena) :
    (next.bind f).Quiet allowed log a := by
  induction first with
  | @finish a r w kept same =>
    cases r with
    | error e => exact .finish kept same
    | ok b => exact (second b w same).after kept
  | call may kept same _ passes ih =>
    refine .call may kept same ih fun e u tells => ?_
    obtain ⟨u', passed, told⟩ := passes e u tells
    exact ⟨u', by rw [passed, Next.bind_finish_error], told⟩

theorem perform {c : κ} (may : allowed c) {w : World σ} (same : w.log = log) :
    (Script.perform c w : Next (World σ) ρ (ρ c)).Quiet allowed log w.arena :=
  .call may (.refl _) same (fun _ u _ same => .finish (.refl u.arena) same)
    fun _ u tells => ⟨u, rfl, tells⟩

theorem read {f : World σ → Except Fault α} {g : α → Script (World σ) ρ β} {w : World σ}
    (same : w.log = log) (reads : ∀ a, f w = .ok a → (g a w).Quiet allowed log w.arena) :
    ((Script.read f >>= g) w).Quiet allowed log w.arena := by
  rw [Script.bind_apply, Script.read]
  cases found : f w with
  | error e => exact .finish (.refl _) same
  | ok a => exact reads a found

theorem forM {f : β → Script (World σ) ρ PUnit} : (items : List β) → {w : World σ} → w.log = log →
    (∀ b ∈ items, ∀ u, u.log = log → (f b u).Quiet allowed log u.arena) →
    (items.forM f w).Quiet allowed log w.arena
  | [], _, same, _ => .finish (.refl _) same
  | b :: items, w, same, each =>
    bind (each b List.mem_cons_self w same) fun _ _ same =>
      forM items same fun b mem => each b (List.mem_cons_of_mem _ mem)

theorem of_idle {idling : κ → Prop} {next : Next (World σ) ρ α} {w : World σ}
    (may : ∀ c, idling c → allowed c) (idle : Next.Idle idling w next) (same : w.log = log) :
    next.Quiet allowed log w.arena := by
  induction idle with
  | finish r w => exact .finish (.refl _) same
  | call engine _ passes ih =>
    exact .call (may _ engine) (.refl _) same (fun r u _ same => ih r u same)
      fun e u tells => ⟨u, passes e u, tells⟩

theorem embed {engine : κ ⊕ ι → Prop} {next : Next (World σ) ρ α} (all : ∀ c, engine (.inl c))
    (quiet : next.Quiet allowed log a) :
    (next.embed : Next (World σ) (TaskReply ρ τ) α).Quiet engine log a := by
  induction quiet with
  | finish kept same => exact .finish kept same
  | call _ kept same _ passes ih =>
    refine .call (all _) kept same ih fun e u tells => ?_
    obtain ⟨u', passed, told⟩ := passes e u tells
    exact ⟨u', by rw [passed]; rfl, told⟩

end Next.Quiet

inductive Stack.Quiet (allowed : κ → Prop) (log : Array Event) {goal : κ} :
    Arena → {c : κ} → Stack (World σ) ρ goal c → Prop where
  | done {a : Arena} : Quiet allowed log a .done
  | push {a : Arena} {c d : κ} {resume : Except Fault (ρ c) → World σ → Next (World σ) ρ (ρ d)}
      {rest : Stack (World σ) ρ goal d} :
      (∀ r u, a.Spares u.arena → u.log = log → (resume r u).Quiet allowed log u.arena) →
      (∀ e u, u.Tells log e → ∃ u', resume (.error e) u = .finish (.error e) u' ∧ u'.Tells log e) →
      Quiet allowed log a rest → Quiet allowed log a (.push c resume rest)

theorem Stack.Quiet.later {goal c : κ} {stack : Stack (World σ) ρ goal c} (spares : a.Spares b)
    (quiet : stack.Quiet allowed log a) : stack.Quiet allowed log b := by
  induction quiet with
  | done => exact .done
  | push resumes passes _ ih =>
    exact .push (fun r u kept same => resumes r u (spares.trans kept) same) passes ih

namespace Machine

variable {body : (c : κ) → Script (World σ) ρ (ρ c)} {goal : κ}

inductive Comes {ω : Type} (body : (c : κ) → Script ω ρ (ρ c)) : Config ω ρ goal → κ → ω → Prop where
  | here {c d : κ} {w : ω} {resume : Except Fault (ρ c) → ω → Next ω ρ (ρ d)}
      {stack : Stack ω ρ goal d} : Comes body ⟨.call c w resume, stack⟩ c w
  | later {x y : Config ω ρ goal} {c : κ} {w : ω} :
      step body x = .inl y → Comes body y c w → Comes body x c w

/-- A call that `refuses` to be carried out logs its fault, and every other call is quiet. -/
structure Reports (allowed : κ → Prop) (refuses : κ → World σ → Fault → Prop)
    (body : (c : κ) → Script (World σ) ρ (ρ c)) : Prop where
  quiet : ∀ c w, allowed c → (∀ e, ¬ refuses c w e) → (body c w).Quiet allowed w.log w.arena
  tells : ∀ c w e, refuses c w e → ∃ u, body c w = .finish (.error e) u ∧ u.Tells w.log e

theorem finish_of_tells {c : κ} {stack : Stack (World σ) ρ goal c} (quiet : stack.Quiet allowed log a)
    {steps : Nat} {e : Fault} {u w' : World σ} {r : Except Fault (ρ goal)} (tells : u.Tells log e)
    (done : finish body steps ⟨.finish (.error e) u, stack⟩ = some (r, w')) :
    r = .error e ∧ w'.Tells log e := by
  induction quiet generalizing steps u with
  | done =>
    cases steps with
    | zero => cases done
    | succ steps =>
      cases done
      exact ⟨rfl, tells⟩
  | push _ passes _ ih =>
    cases steps with
    | zero => cases done
    | succ steps =>
      obtain ⟨u', passed, told⟩ := passes e u tells
      rw [finish, step] at done
      dsimp only at done
      rw [passed] at done
      exact ih told done

variable {refuses : κ → World σ → Fault → Prop}

/-- From here on the run has logged nothing and comes to no refusal, or it ends with the first one. -/
theorem Reports.finish (reports : Reports allowed refuses body) (steps : Nat) :
    ∀ {a : Arena} {d : κ} {next : Next (World σ) ρ (ρ d)} {stack : Stack (World σ) ρ goal d}
      {r : Except Fault (ρ goal)} {w' : World σ},
      next.Quiet allowed log a → stack.Quiet allowed log a →
      finish body steps ⟨next, stack⟩ = some (r, w') →
      (w'.log = log ∧ ∀ c u e, Comes body ⟨next, stack⟩ c u → ¬ refuses c u e) ∨
        ∃ c u e, Comes body ⟨next, stack⟩ c u ∧ refuses c u e ∧ r = .error e ∧ w'.Tells log e := by
  -- Each step leaves the code and its callers quiet, up to the first refusal, which then runs through.
  induction steps with
  | zero =>
    intro _ _ _ _ _ _ _ _ done
    cases done
  | succ steps ih =>
    intro a d next stack r w' running waiting done
    cases running with
    | @finish _ reply w kept same =>
      cases waiting with
      | done =>
        cases done
        refine .inl ⟨same, fun c u e comes => ?_⟩
        cases comes with
        | later taken _ => cases taken
      | push resumes passes below =>
        have next := resumes reply w kept same
        rcases ih next (below.later kept) done with ⟨silent, none⟩ | ⟨c, u, e, comes, refused, ended⟩
        · refine .inl ⟨silent, fun c u e comes => ?_⟩
          cases comes with
          | later taken comes =>
            cases taken
            exact none c u e comes
        · exact .inr ⟨c, u, e, .later rfl comes, refused, ended⟩
    | @call _ c w resume may kept same resumes passes =>
      have below : (Stack.push c resume stack).Quiet allowed log w.arena :=
        .push resumes passes (waiting.later kept)
      by_cases refused : ∃ e, refuses c w e
      · obtain ⟨e, refused⟩ := refused
        obtain ⟨u, told, tells⟩ := reports.tells c w e refused
        rw [Machine.finish, step] at done
        dsimp only at done
        rw [told] at done
        rw [same] at tells
        exact .inr ⟨c, w, e, .here, refused, finish_of_tells below tells done⟩
      · have silent : ∀ e, ¬ refuses c w e := not_exists.mp refused
        have begun := reports.quiet c w may silent
        rw [same] at begun
        rcases ih begun below done with ⟨same', none⟩ | ⟨c', u, e, comes, refused, ended⟩
        · refine .inl ⟨same', fun c' u e comes => ?_⟩
          cases comes with
          | here => exact silent e
          | later taken comes =>
            cases taken
            exact none c' u e comes
        · exact .inr ⟨c', u, e, .later rfl comes, refused, ended⟩

theorem Reports.run (reports : Reports allowed refuses body) {steps : Nat} {c : κ} {w w' : World σ}
    {r : Except Fault (ρ c)} (may : allowed c) (granted : ∀ e, ¬ refuses c w e)
    (done : Machine.run body steps c w = some (r, w')) :
    (w'.log = w.log ∧ ∀ d u e, Comes body ⟨body c w, .done⟩ d u → ¬ refuses d u e) ∨
      ∃ d u e, Comes body ⟨body c w, .done⟩ d u ∧ refuses d u e ∧ r = .error e ∧ w'.Tells w.log e :=
  reports.finish steps (reports.quiet c w may granted) .done done

end Machine

end Quiet

section Dispatch

variable {σ ι α : Type} {ρ : Call → Type} {τ : ι → Type} {allowed : Call ⊕ ι → Prop} {h : Handle}
  {w : World σ} {f : Tag → Script (World σ) (TaskReply ρ τ) α}

/-- The call dispatches a handle to a node of another category, and the fault says so. -/
def Refuses : Call ⊕ ι → World σ → Fault → Prop
  | .inl (.dispatch h), w, e => ∃ n, w.arena.node h.node = .ok n ∧ n.category ≠ h.category ∧
      e = .unknownNode h.category h.node n.tag
  | _, _, _ => False

theorem classify_quiet (granted : ∀ e, ¬ Refuses (.inl (.dispatch h) : Call ⊕ ι) w e)
    (each : ∀ t, (f t w).Quiet allowed w.log w.arena) :
    ((Script.step (World.classify h) >>= f) w).Quiet allowed w.log w.arena := by
  rw [Script.bind_apply, Script.step, World.classify]
  cases found : w.arena.node h.node with
  | error e => exact .finish (.refl _) rfl
  | ok n =>
    by_cases same : n.tag.category = h.category
    · simp only [same, if_true, Next.bind_finish_ok]
      exact each n.tag
    · exact absurd ⟨n, found, same, rfl⟩ (granted _)

theorem classify_tells {e : Fault} (refused : Refuses (.inl (.dispatch h) : Call ⊕ ι) w e) :
    ∃ u, (Script.step (World.classify h) >>= f) w = .finish (.error e) u ∧ u.Tells w.log e := by
  obtain ⟨n, found, other, rfl⟩ := refused
  refine ⟨w.note (.unknownNode h.category h.node n.tag), ?_, _, _, _, rfl, rfl⟩
  have category : n.tag.category ≠ h.category := other
  simp [Script.bind_apply, Script.step, World.classify, found, category]

end Dispatch

namespace Visitor

variable {σ : Type}

/-- The handlers are quiet. -/
structure Discreet (v : Visitor σ) : Prop where
  enter : ∀ h w, (v.enter h w).Quiet (fun _ => True) w.log w.arena
  method : ∀ t id w, (v.method t id w).Quiet (fun _ => True) w.log w.arena

theorem Discreet.reports {v : Visitor σ} (discreet : v.Discreet) :
    Machine.Reports (fun _ => True) Refuses v.body where
  quiet task w _ granted := by
    match task with
    | .inl (.enter h) => exact (discreet.enter h w).embed fun _ => trivial
    | .inl (.dispatch h) =>
      exact classify_quiet granted fun t => (discreet.method t h.node w).embed fun _ => trivial
    | .inl (.walk t owner) => exact .of_idle (fun _ _ => trivial) (v.walk_idle t owner w) rfl
    | .inr loop => exact .of_idle (fun _ _ => trivial) (v.loop_idle loop w) rfl
  tells task w e refused := by
    match task with
    | .inl (.dispatch h) => exact classify_tells refused

end Visitor

namespace Transformer

variable {σ : Type} {log : Array Event}

structure Discreet (r : Transformer σ) : Prop where
  enter : ∀ h w, (r.enter h w).Quiet (fun _ => True) w.log w.arena
  method : ∀ t id w, (r.method t id w).Quiet (fun _ => True) w.log w.arena

/-- Loops are begun over sequences only. -/
def LaneTask : Call ⊕ Loop → Prop
  | .inl _ => True
  | .inr loop => ∃ lane, loop.t.lanes[loop.k]? = some lane ∧ lane.arity = .many

end Transformer

section Fill

variable {σ : Type} {t : Tag} {owner : NodeId} {k i : Nat} {w u : World σ}

theorem World.fill_spares (t : Tag) (owner : NodeId) (k i : Nat) (new : NodeId) (u : World σ) :
    u.arena.Spares (World.fill t owner k i new u).2.arena ∧
      (World.fill t owner k i new u).2.log = u.log := by
  cases got : u.arena.get t owner with
  | error e => simp [World.fill, got, Arena.Spares.refl]
  | ok record =>
    obtain ⟨n, stored, rfl⟩ := Arena.node_of_get got
    cases there : n.place? k i with
    | none => simp [World.fill_of_none stored there, Arena.Spares.refl]
    | some old =>
      rw [World.fill_of_node stored there]
      exact ⟨Arena.spares_fill stored, rfl⟩

/-- A position of a sequence that was there is still there to be filled. -/
theorem World.fill_of_spares {lane : Lane} {place : Option NodeId}
    (here : t.lanes[k]? = some lane) (many : lane.arity = .many)
    (reads : World.place? t owner k i w = .ok (some place)) (spares : w.arena.Spares u.arena)
    (new : NodeId) : (World.fill t owner k i new u).1 = .ok true := by
  cases got : w.arena.get t owner with
  | error e => simp [World.place?, got, Except.map] at reads
  | ok record =>
    obtain ⟨n, stored, rfl⟩ := Arena.node_of_get got
    obtain ⟨m, stored', tag, long⟩ := spares owner n stored
    have there : n.place? k i = some place :=
      Except.ok.inj ((World.place?_of_node stored k i).symm.trans reads)
    rw [← Node.getElem?_places] at there
    have less : i < (m.places k).length :=
      Nat.lt_of_lt_of_le (List.getElem?_eq_some_iff.mp there).choose (long k lane here many)
    have still : m.place? k i = some (m.places k)[i] := by
      rw [← Node.getElem?_places, List.getElem?_eq_getElem less]
    rw [← tag, World.fill_of_node stored' still]

end Fill

namespace Transformer

variable {σ : Type} {log : Array Event} {w : World (Tally σ)}

/-- A place is read, its occupant is replaced, and the answer is stored. In a sequence no answer is
dropped. -/
theorem replace_quiet {α : Type} {kept stored dropped : Task σ α} {t : Tag} {owner : NodeId}
    {k i : Nat} {c : Category} {place : Option NodeId} (same : w.log = log)
    (reads : World.place? t owner k i w = .ok (some place))
    (keep : ∀ u, u.log = log → (kept u).Quiet LaneTask log u.arena)
    (store : ∀ u, u.log = log → (stored u).Quiet LaneTask log u.arena)
    (drop : (∃ lane, t.lanes[k]? = some lane ∧ lane.arity = .many) ∨
      ∀ u, u.log = log → (dropped u).Quiet LaneTask log u.arena) :
    ((do
      let new ← replacePlace c place
      if new = place then kept
      else if ← Script.step ((Access.lane t owner k).write i new) then stored
      else dropped : Task σ α) w).Quiet LaneTask log w.arena := by
  cases place with
  | none => exact keep w same
  | some old =>
    refine .call trivial (.refl _) same (fun reply u spares same => ?_) fun e u tells => ⟨u, rfl, tells⟩
    cases reply with
    | error e => exact .finish (.refl _) same
    | ok new =>
      change Next.Quiet _ _ _ ((if some new = some old then kept else _ : Task σ α) u)
      split
      · exact keep u same
      · obtain ⟨spares', same'⟩ := World.fill_spares t owner k i new u
        have fits := fun lane (here : t.lanes[k]? = some lane) many =>
          World.fill_of_spares here many reads spares new
        rw [Script.bind_apply, Script.step, Access.lane]
        dsimp only
        generalize World.fill t owner k i new u = outcome at spares' same' fits
        obtain ⟨result, v⟩ := outcome
        replace same' : v.log = log := same'.trans same
        rcases result with e | _ | _
        · exact .finish spares' same'
        · rcases drop with ⟨lane, here, many⟩ | drop
          · cases fits lane here many
          · exact (drop v same').after spares'
        · exact (store v same').after spares'

theorem count_quiet (n : Nat) (same : w.log = log) :
    (count n w).Quiet (ρ := TaskReply Reply fun _ : Loop => Nat) LaneTask log w.arena :=
  .finish (.refl _) same

theorem walkLane_quiet {t : Tag} (owner : NodeId) {lane : Lane} {k : Nat}
    (here : t.lanes[k]? = some lane) (same : w.log = log) :
    (walkLane t owner lane k w).Quiet LaneTask log w.arena := by
  rw [walkLane]
  cases arity : lane.arity with
  | one =>
    refine .read same fun place reads => ?_
    cases place with
    | none => exact .finish (.refl _) same
    | some place =>
      exact replace_quiet same reads (fun _ same => .finish (.refl _) same)
        (fun _ same => count_quiet 1 same) (.inr fun _ same => .finish (.refl _) same)
  | many => exact .bind (.perform ⟨lane, here, arity⟩ same) fun n _ same => count_quiet n same

theorem loop_quiet (r : Transformer σ) (loop : Loop) (task : LaneTask (.inr loop)) (same : w.log = log) :
    (r.body (.inr loop) w).Quiet LaneTask log w.arena := by
  refine .read same fun place reads => ?_
  cases place with
  | none => exact .finish (.refl _) same
  | some place =>
    have next : ∀ (i n : Nat) (u : World (Tally σ)), u.log = log →
        (Loop.go { loop with i, replaced := n } u).Quiet LaneTask log u.arena :=
      fun i n _ same => .perform (c := Sum.inr { loop with i, replaced := n }) task same
    exact replace_quiet same reads (next _ _) (next _ _) (.inl task)

theorem Discreet.reports {r : Transformer σ} (discreet : r.Discreet) :
    Machine.Reports LaneTask Refuses r.body where
  quiet task w may granted := by
    match task with
    | .inl (.enter h) => exact (discreet.enter h w).embed fun _ => trivial
    | .inl (.dispatch h) =>
      exact classify_quiet granted fun t => (discreet.method t h.node w).embed fun _ => trivial
    | .inl (.walk t owner) =>
      refine .forM _ rfl fun ⟨lane, k⟩ mem u same => ?_
      exact walkLane_quiet owner (List.mem_zipIdx_iff_getElem?.mp mem) same
    | .inr loop => exact loop_quiet r loop may rfl
  tells task w e refused := by
    match task with
    | .inl (.dispatch h) => exact classify_tells refused

end Transformer

/-- What a run has reported: at most one fault, which is the one that it ends with, and that only if it
was `made` by a dispatch. -/
structure Reported {α : Type} (made : Fault → Prop) (result : Except Fault α) (errors : List Event) :
    Prop where
  once : errors.length ≤ 1
  known : ∀ event ∈ errors, ∃ c n t, event = .unknownNode c n t
  told : ∀ c n t, .unknownNode c n t ∈ errors ↔
    result = .error (.unknownNode c n t) ∧ made (.unknownNode c n t)

theorem Reported.congr {α β : Type} {made : Fault → Prop} {result : Except Fault α}
    {result' : Except Fault β} {errors : List Event} (reported : Reported made result errors)
    (same : ∀ e, result' = .error e ↔ result = .error e) : Reported made result' errors :=
  ⟨reported.once, reported.known, fun c n t => by rw [reported.told, same]⟩

section Runs

variable {σ ι : Type} {ρ : Call → Type} {τ : ι → Type} {allowed : Call ⊕ ι → Prop}
  {body : (task : Call ⊕ ι) → Script (World σ) (TaskReply ρ τ) (TaskReply ρ τ task)}

/-- The run that carries out the entry of a module comes to a dispatch that makes the fault. -/
def DispatchMakes (body : (task : Call ⊕ ι) → Script (World σ) (TaskReply ρ τ) (TaskReply ρ τ task))
    (root : NodeId) (w : World σ) (e : Fault) : Prop :=
  ∃ task u, Machine.Comes body ⟨body (.inl (.enter ⟨.module, root⟩)) w, .done⟩ task u ∧ Refuses task u e

theorem Machine.Reports.reported (reports : Machine.Reports allowed Refuses body) {steps : Nat}
    {root : NodeId} {w w' : World σ} {r : Except Fault (ρ (.enter ⟨.module, root⟩))}
    (may : allowed (.inl (.enter ⟨.module, root⟩)))
    (done : Machine.run body steps (.inl (.enter ⟨.module, root⟩)) w = some (r, w')) :
    ∃ errors, w'.log.toList = w.log.toList ++ errors ∧
      Reported (DispatchMakes body root w) r errors := by
  rcases reports.run may (fun _ refused => refused) done with
    ⟨silent, none⟩ | ⟨task, u, e, comes, refused, ended, c, n, t, rfl, log⟩
  · refine ⟨[], by simp [silent], by simp, by simp, fun c n t => ?_⟩
    simp only [List.not_mem_nil, false_iff, not_and]
    rintro - ⟨task, u, comes, refused⟩
    exact none task u _ comes refused
  · refine ⟨[.unknownNode c n t], by simp [log], by simp, by simp, fun c' n' t' => ?_⟩
    constructor
    · intro mem
      cases List.mem_singleton.mp mem
      exact ⟨ended, task, u, comes, refused⟩
    · rintro ⟨same, -⟩
      cases ended.symm.trans same
      exact List.mem_singleton_self _

end Runs

/-- The end of a transformation is logged if it comes to a good one. -/
def finishing (root : NodeId) : Except Fault (NodeId × UInt64) → List Event
  | .ok (newRoot, replaced) => [.transformed replaced (newRoot != root)]
  | .error _ => []

def settling : Except Fault FixedPoint → List Event
  | .ok fp => [.settled fp.rounds fp.total]
  | .error _ => []

/-- The log of one transformation: its start, at most one fault, and its end if it is a good one. -/
def TransformLog (log : List Event) : Prop :=
  ∃ root errors result, log = .started .transform root :: (errors ++ finishing root result) ∧
    errors.length ≤ 1 ∧ ∀ event ∈ errors, ∃ c n t, event = .unknownNode c n t

def Event.replaced? : Event → Option UInt64
  | transformed replaced _ => some replaced
  | _ => none

section Drivers

variable {σ : Type} {steps : Nat} {root : NodeId}

theorem Visitor.Discreet.traverse {v : Visitor σ} (discreet : v.Discreet) {w w' : World σ}
    {r : Except Fault Unit} (done : v.traverse steps root w = some (r, w')) :
    ∃ errors, w'.log.toList = w.log.toList ++ .started .traverse root :: errors ∧
      Reported (DispatchMakes v.body root (w.note (.started .traverse root))) r errors := by
  obtain ⟨errors, log, reported⟩ := discreet.reports.reported trivial done
  exact ⟨errors, by simpa [World.note] using log, reported⟩

theorem Transformer.Discreet.transform {r : Transformer σ} (discreet : r.Discreet) {w w' : World (Tally σ)}
    {result : Except Fault (NodeId × UInt64)} (done : r.transform steps root w = some (result, w')) :
    ∃ errors, w'.log.toList =
        w.log.toList ++ .started .transform root :: (errors ++ finishing root result) ∧
      Reported (DispatchMakes r.body root (w.note (.started .transform root))) result errors := by
  obtain ⟨reply, u, ran, ended⟩ := Transformer.transform_cases done
  obtain ⟨errors, log, reported⟩ := discreet.reports.reported trivial ran
  have log' : u.log.toList = w.log.toList ++ .started .transform root :: errors := by
    simpa [World.note] using log
  refine ⟨errors, ?_⟩
  rcases ended with ⟨e, rfl, rfl, rfl⟩ | ⟨newRoot, rfl, rfl, rfl⟩
  · exact ⟨by simp [finishing, log'], reported.congr fun _ => by simp⟩
  · exact ⟨by simp [World.note, finishing, log'], reported.congr fun _ => by simp⟩

namespace FixedPoint

variable {makePass : σ → Pass σ}

/-- Rounds one after the other and what each of them has logged. Only the last one may have failed. -/
inductive Logs (steps : Nat) (makePass : σ → Pass σ) : NodeId → World σ → List (List Event) → Prop where
  | nil (root : NodeId) (w : World σ) : Logs steps makePass root w []
  | failed {root : NodeId} {w w' : World σ} {e : Fault} {log : List Event} :
      round steps makePass root w = some (.error e, w') → w'.log.toList = w.log.toList ++ log →
      Logs steps makePass root w [log]
  | next {root newRoot : NodeId} {w w' : World σ} {replaced : UInt64} {log : List Event}
      {logs : List (List Event)} :
      round steps makePass root w = some (.ok (newRoot, replaced), w') →
      w'.log.toList = w.log.toList ++ log → Logs steps makePass newRoot w' logs →
      Logs steps makePass root w (log :: logs)

def counts (log : List Event) : List UInt64 :=
  log.filterMap Event.replaced?

theorem counts_append (log log' : List Event) : counts (log ++ log') = counts log ++ counts log' :=
  List.filterMap_append ..

/-- A round of a discreet pass logs one report, of its own count, if it comes to a good end. -/
theorem round_log (discreet : ∀ s, (makePass s).transformer.Discreet) {w w' : World σ}
    {result : Except Fault (NodeId × UInt64)} (done : round steps makePass root w = some (result, w')) :
    ∃ log, w'.log.toList = w.log.toList ++ log ∧ TransformLog log ∧
      counts log = (result.toOption.map Prod.snd).toList := by
  rw [round, Option.map_eq_some_iff] at done
  obtain ⟨⟨result, u⟩, ran, same⟩ := done
  cases same
  obtain ⟨errors, log, reported⟩ := (discreet w.state).transform ran
  refine ⟨_, log, ⟨root, errors, result, rfl, reported.once, reported.known⟩, ?_⟩
  have none : counts errors = [] := by
    apply List.filterMap_eq_nil_iff.mpr
    intro event mem
    obtain ⟨c, n, t, rfl⟩ := reported.known event mem
    rfl
  change counts (errors ++ finishing root result) = _
  rw [counts_append, none]
  cases result <;> rfl

/-- What the rounds that are left log, one after the other, and what is logged at their end. -/
theorem iterate_log (discreet : ∀ s, (makePass s).transformer.Discreet) (left : Nat) :
    ∀ {before : Nat} {total : UInt64} {root : NodeId} {w w' : World σ} {r : Except Fault FixedPoint},
      iterate steps makePass left before total root w = some (r, w') →
      ∃ logs, Logs steps makePass root w logs ∧
        w'.log.toList = w.log.toList ++ logs.flatten ++ settling r ∧ (∀ log ∈ logs, TransformLog log) ∧
        ∀ fp, r = .ok fp → fp.rounds = before + (counts logs.flatten).length ∧
          fp.total = total + (counts logs.flatten).sum := by
  induction left with
  | zero =>
    intro before total root w w' r done
    cases done
    exact ⟨[], .nil root w, by simp [settling], by simp, by simp⟩
  | succ left ih =>
    intro before total root w w' r done
    rw [iterate] at done
    rcases made : round steps makePass root w with _ | ⟨e | ⟨newRoot, replaced⟩, u⟩
    · simp [made] at done
    · obtain ⟨rfl, rfl⟩ : .error e = r ∧ u = w' := by simpa [made] using done
      obtain ⟨log, grown, form, -⟩ := round_log discreet made
      exact ⟨[log], .failed made grown, by simp [grown, settling], by simp [form], by simp⟩
    · obtain ⟨log, grown, form, count⟩ := round_log discreet made
      replace count : counts log = [replaced] := count
      simp only [made] at done
      split at done
      next settled =>
        simp only [Option.some.injEq, Prod.mk.injEq] at done
        obtain ⟨rfl, rfl⟩ := done
        refine ⟨[log], .next made grown (.nil newRoot u), by simp [World.note, grown, settling],
          by simp [form], ?_⟩
        rintro fp same
        cases same
        simp [count]
      next changed =>
        obtain ⟨logs, rounds, grown', forms, sums⟩ := ih done
        refine ⟨log :: logs, .next made grown rounds, by simp [grown', grown],
          List.forall_mem_cons.mpr ⟨form, forms⟩, fun fp same => ?_⟩
        obtain ⟨rounds', total'⟩ := sums fp same
        rw [List.flatten_cons, counts_append, count, rounds', total']
        constructor
        · simp only [List.singleton_append, List.length_cons]
          omega
        · rw [List.singleton_append, List.sum_cons, UInt64.add_assoc]

end FixedPoint

end Drivers

/-- The log of a discreet pass and its outcome agree: on the fault of a dispatch, on the end of a
transformation, and on the rounds of a repeated one and their sum. -/
theorem discreet_runs_report {σ : Type} (steps limit : Nat) (root : NodeId) :
    (∀ v : Visitor σ, v.Discreet → ∀ w r w', v.traverse steps root w = some (r, w') →
      ∃ errors, w'.log.toList = w.log.toList ++ .started .traverse root :: errors ∧
        Reported (DispatchMakes v.body root (w.note (.started .traverse root))) r errors) ∧
    (∀ r : Transformer σ, r.Discreet → ∀ w result w', r.transform steps root w = some (result, w') →
      ∃ errors, w'.log.toList =
          w.log.toList ++ .started .transform root :: (errors ++ finishing root result) ∧
        Reported (DispatchMakes r.body root (w.note (.started .transform root))) result errors) ∧
    ∀ makePass : σ → Pass σ, (∀ s, (makePass s).transformer.Discreet) →
      ∀ w r w', settle steps limit makePass root w = some (r, w') →
      ∃ logs, FixedPoint.Logs steps makePass root (w.note (.started .settle root)) logs ∧
        w'.log.toList = w.log.toList ++ .started .settle root :: (logs.flatten ++ settling r) ∧
        (∀ log ∈ logs, TransformLog log) ∧
        ∀ fp, r = .ok fp → fp.rounds = (FixedPoint.counts logs.flatten).length ∧
          fp.total = UInt64.ofNat ((FixedPoint.counts logs.flatten).map UInt64.toNat).sum := by
  refine ⟨fun v discreet w r w' done => discreet.traverse done,
    fun r discreet w result w' done => discreet.transform done, fun makePass discreet w r w' done => ?_⟩
  obtain ⟨logs, rounds, grown, forms, sums⟩ := FixedPoint.iterate_log discreet limit done
  refine ⟨logs, rounds, by simp [grown, World.note], forms, fun fp same => ?_⟩
  obtain ⟨count, total⟩ := sums fp same
  rw [← sum_eq_ofNat]
  exact ⟨by rw [count, Nat.zero_add], by rw [total, UInt64.zero_add]⟩

def renewingOne : Transformer Unit where
  enter h :=
    if h.node = ⟨1⟩ then
      Script.step fun w =>
        let (id, arena) := w.arena.alloc ⟨.constant, (.int 2, ()), .dummy⟩
        (.ok id, { w with arena })
    else Script.perform (Call.dispatch h)

theorem renewingOne_discreet : renewingOne.Discreet where
  enter h w := by
    by_cases one : h.node = ⟨1⟩
    · simp only [renewingOne, one, if_true]
      exact .finish (Arena.Steady.alloc _ _).spares rfl
    · simp only [renewingOne, one, if_false]
      exact .perform trivial rfl
  method _ _ _ := .bind (.perform trivial rfl) fun _ u same => .finish (.refl u.arena) same

theorem defaultVisitor_discreet : ({} : Visitor Unit).Discreet where
  enter _ _ := .perform trivial rfl
  method _ _ _ := .perform trivial rfl

def constantSample (parts constants : List NodeId) : World Unit where
  arena := .ofList [⟨.nameSpace, ("all", parts, [], [], constants, [], ()), .dummy⟩,
    ⟨.constant, (.int 1, ()), .dummy⟩]
  log := #[]
  state := ()

def constantSampleAfter : World Unit where
  arena := .ofList [⟨.nameSpace, ("all", [], [], [], [⟨2⟩], [], ()), .dummy⟩,
    ⟨.constant, (.int 1, ()), .dummy⟩, ⟨.constant, (.int 2, ()), .dummy⟩]
  log := #[.started .settle ⟨0⟩, .started .transform ⟨0⟩, .transformed 1 false]
  state := ()

theorem constantSample_settles :
    settle 40 3 (renewingOne.renewed 0) ⟨0⟩ (constantSample [] [⟨1⟩]) =
      some (.ok ⟨⟨0⟩, 2, 1⟩, ((constantSampleAfter.note (.started .transform ⟨0⟩)).note
        (.transformed 0 false)).note (.settled 2 1)) := by
  have first : FixedPoint.Rounds 40 (renewingOne.renewed 0) ⟨0⟩
      ((constantSample [] [⟨1⟩]).note (.started .settle ⟨0⟩)) [1] ⟨0⟩ constantSampleAfter :=
    .next .start (by rfl) (by decide)
  exact settle_of_settled first (by decide) (by rfl)

theorem discreet_runs_report_constantSample :
    DispatchMakes ({} : Visitor Unit).body ⟨0⟩
      ((constantSample [⟨1⟩] []).note (.started .traverse ⟨0⟩)) (.unknownNode .module ⟨1⟩ .constant) ∧
    ∃ (logs : List (List Event)) (final : World Unit),
      settle 40 3 (renewingOne.renewed 0) ⟨0⟩ (constantSample [] [⟨1⟩]) =
        some (.ok ⟨⟨0⟩, 2, 1⟩, final) ∧
      final.log.toList = .started .settle ⟨0⟩ :: (logs.flatten ++ [.settled 2 1]) ∧
      (FixedPoint.counts logs.flatten).length = 2 := by
  have reports := discreet_runs_report (σ := Unit) 40 3 ⟨0⟩
  constructor
  · obtain ⟨errors, log, reported⟩ := reports.1 {} defaultVisitor_discreet (constantSample [⟨1⟩] []) _ _ rfl
    have only : [.unknownNode .module ⟨1⟩ .constant] = errors := (List.cons.inj log).2
    exact ((reported.told .module ⟨1⟩ .constant).mp (by simp [← only])).2
  · obtain ⟨logs, -, log, -, sums⟩ := reports.2.2 (renewingOne.renewed 0) (fun _ => renewingOne_discreet) _ _ _
      constantSample_settles
    exact ⟨logs, _, constantSample_settles, log, (sums _ rfl).1.symm⟩

end ProgramTree
