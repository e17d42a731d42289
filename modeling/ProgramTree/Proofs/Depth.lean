import Mathlib.Data.List.Nodup
import ProgramTree.Proofs.Dispatching
import ProgramTree.Proofs.Nesting

/-!
How deep a pass goes. A pass that only looks on dispatches a node inside the dispatches of the nodes that
led there. If it comes back to a node that it is still busy with, it has all it needs to come back once
more, and so it never ends. Otherwise the nodes on the way down are different ones, so there are no more of
them than the arena has, and the pass comes to its end. One more dispatch can be in progress, that of a bad
handle, which fails at once (`depth_dichotomy`).
-/

namespace ProgramTree

def Call.dispatched? : Call → Option Handle
  | .dispatch h => some h
  | .enter _ | .walk .. => none

/-- The handles whose dispatches are in progress, innermost first. -/
def dispatching {ρ : Call → Type} (past : List (Moment ρ)) : List Handle :=
  (inProgress past).filterMap Call.dispatched?

/-- The law of depth for a run in the arena `a`: `run` is its outcome within a number of steps, and `shown`
what it has shown by then. -/
structure DepthLaw {ρ : Call → Type} {α : Type} (a : Arena) (run : Nat → Option α)
    (shown : Nat → List (Moment ρ)) : Prop where
  /-- The run returns, and never are more dispatches in progress than there are nodes, and one; or it never
  returns. -/
  dichotomy : ((∃ steps outcome, run steps = some outcome) ∧
      ∀ steps, (dispatching (shown steps)).length ≤ a.size + 1) ∨
    ∀ steps, run steps = none
  /-- It never returns exactly if a node is dispatched, as the category that it is of, while a dispatch of
  this node is in progress. -/
  endless_iff : (∀ steps, run steps = none) ↔
    ∃ steps before h h', shown steps = before ++ [.began (.dispatch h)] ∧ a.Good h ∧
      h' ∈ dispatching before ∧ h'.node = h.node

section Lists

variable {a : Arena} {hs : List Handle}

theorem nodup_nodes (apart : ∀ inner h outer, hs = inner ++ h :: outer → ∀ h' ∈ outer, h'.node ≠ h.node) :
    (hs.map Handle.node).Nodup := by
  induction hs with
  | nil => exact List.nodup_nil
  | cons h hs ih =>
    rw [List.map_cons, List.nodup_cons]
    constructor
    · intro again
      obtain ⟨h', mem, same⟩ := List.mem_map.mp again
      exact apart [] h hs rfl h' mem same
    · exact ih fun inner g outer split => apart (h :: inner) g outer (by rw [split]; rfl)

theorem Arena.Good.eq {h h' : Handle} (good : a.Good h) (good' : a.Good h') (same : h.node = h'.node) :
    h = h' := by
  obtain ⟨n, stored, category⟩ := good
  obtain ⟨n', stored', category'⟩ := good'
  rw [same] at stored
  obtain rfl : n = n' := Except.ok.inj (stored.symm.trans stored')
  cases h
  cases h'
  simp_all

theorem length_le_size (good : ∀ h ∈ hs, a.Good h) (apart : (hs.map Handle.node).Nodup) :
    hs.length ≤ a.size := by
  have inside : hs.map (fun h => h.node.index) ⊆ List.range a.size := by
    intro i listed
    obtain ⟨h, mem, rfl⟩ := List.mem_map.mp listed
    obtain ⟨n, stored, -⟩ := good h mem
    exact List.mem_range.mpr (Arena.lt_size_of_node stored)
  have indices : (hs.map fun h => h.node.index).Nodup := by
    have := apart.map (f := NodeId.index) fun i j same => by cases i; cases j; simp_all
    rwa [List.map_map] at this
  have bound := (List.subperm_of_subset indices inside).length_le
  simpa using bound

theorem length_dispatching_le {ρ : Call → Type} {bound : Nat} {past : List (Moment ρ)}
    (begun : ∀ before c after, past = before ++ .began c :: after →
      ((c :: inProgress before).filterMap Call.dispatched?).length ≤ bound) :
    (dispatching past).length ≤ bound := by
  induction past using List.reverseRecOn with
  | nil => exact Nat.zero_le _
  | append_singleton past moment ih =>
    have step : inProgress (past ++ [moment]) = Moment.follow (inProgress past) moment := by
      simp [inProgress]
    rw [dispatching, step]
    cases moment with
    | began c => exact begun past c [] rfl
    | ended c r =>
      refine Nat.le_trans ((List.tail_sublist _).filterMap _).length_le (ih fun before d after split => ?_)
      exact begun before d (after ++ [.ended c r]) (by rw [split]; simp)

end Lists

/-- Code that works in the world `w` only, and fails when one of its calls does. -/
inductive Next.Unmoved {ω κ α : Type} {ρ : κ → Type} (w : ω) : Next ω ρ α → Prop where
  | ok (a : α) : Unmoved w (.finish (.ok a) w)
  | error (e : Fault) (u : ω) : Unmoved w (.finish (.error e) u)
  | call {c : κ} {resume : Except Fault (ρ c) → ω → Next ω ρ α} :
      (∀ x, Unmoved w (resume (.ok x) w)) → (∀ e u, resume (.error e) u = .finish (.error e) u) →
      Unmoved w (.call c w resume)

theorem Next.Idle.unmoved {ω κ α : Type} {ρ : κ → Type} {allowed : κ → Prop} {w : ω}
    {next : Next ω ρ α} (idle : Next.Idle allowed w next) : next.Unmoved w := by
  induction idle with
  | finish r w =>
    cases r with
    | ok a => exact .ok a
    | error e => exact .error e w
  | call _ _ passes ih => exact .call (fun x => ih (.ok x) _) passes

namespace Machine

variable {ω κ α : Type} {ρ : κ → Type} {body : (c : κ) → Script ω ρ (ρ c)} {w u : ω}
  {next : Next ω ρ α} {past : List (Moment ρ)} {waiting : List κ} {d : κ}
  (bodies : ∀ c, (body c w).Unmoved w)

include bodies

theorem Yields.unmoved {r : Except Fault α} (yields : Yields body next past r u)
    (still : next.Unmoved w) {a : α} (good : r = .ok a) : u = w := by
  induction yields with
  | finished r v =>
    cases still with
    | ok => rfl
    | error => cases good
  | @called _ c v w₁ w₂ resume inner outer reply r _ second ihInner ihOuter =>
    cases still with
    | call goods passes =>
      cases reply with
      | ok x =>
        obtain rfl := ihInner (bodies c) rfl
        exact ihOuter (goods x) good
      | error e =>
        rw [passes] at second
        cases second
        cases good

theorem Arrives.unmoved (arrives : Arrives body next past waiting d u) (still : next.Unmoved w) :
    u = w := by
  induction arrives with
  | here =>
    cases still
    rfl
  | inside _ ih =>
    cases still
    exact ih (bodies _)
  | @later _ c _ _ w₁ _ _ _ _ _ reply yields arrives ih =>
    cases still with
    | call goods passes =>
      cases reply with
      | ok x =>
        obtain rfl := yields.unmoved bodies (bodies c) rfl
        exact ih (goods x)
      | error e =>
        rw [passes] at arrives
        cases arrives

end Machine

namespace Visitor

def idler (policy : Policy) : Visitor Unit where
  policy := fun _ => policy

variable (policy : Policy) (w : World Unit)

theorem idler_enter (h : Handle) :
    (idler policy).body (.inl (.enter h)) w = .call (.inl (.dispatch h)) w .finish :=
  rfl

theorem idler_dispatch_of_shows {h : Handle} {n : Node} (shown : w.arena.Shows h n) :
    (idler policy).body (.inl (.dispatch h)) w = .call (.inl (.walk n.tag h.node)) w .finish := by
  rw [body, Script.step_bind (World.classify_of_shows shown)]
  rfl

theorem idler_dispatch_of_not_good {h : Handle} (bad : ¬ w.arena.Good h) :
    ∃ e u, (idler policy).body (.inl (.dispatch h)) w = .finish (.error e) u := by
  obtain ⟨e, u, -, found⟩ := World.classify_of_not_good bad
  exact ⟨e, u, by rw [body, Script.step_bind_error found]⟩

theorem idler_unmoved (task : Call ⊕ Loop) : ((idler policy).body task w).Unmoved w := by
  match task with
  | .inl (.enter h) => exact .call .ok fun _ _ => rfl
  | .inl (.walk t owner) => exact (walk_idle _ t owner w).unmoved
  | .inr loop => exact (loop_idle _ loop w).unmoved
  | .inl (.dispatch h) =>
    by_cases good : w.arena.Good h
    · obtain ⟨n, shown⟩ := good
      rw [idler_dispatch_of_shows policy w shown]
      exact .call .ok fun _ _ => rfl
    · obtain ⟨e, u, fails⟩ := idler_dispatch_of_not_good policy w good
      rw [fails]
      exact .error e u

def dispatches (waiting : List (Call ⊕ Loop)) : List Handle :=
  waiting.filterMap fun task => task.getLeft?.bind Call.dispatched?

theorem filterMap_dispatched? (waiting : List (Call ⊕ Loop)) :
    (waiting.filterMap Sum.getLeft?).filterMap Call.dispatched? = dispatches waiting :=
  List.filterMap_filterMap

theorem dispatched?_eq_some {task : Call ⊕ Loop} {h : Handle} :
    task.getLeft?.bind Call.dispatched? = some h ↔ task = .inl (.dispatch h) := by
  rcases task with (_ | _ | _) | _ <;> simp [Call.dispatched?]

theorem mem_dispatches {h : Handle} {waiting : List (Call ⊕ Loop)} :
    h ∈ dispatches waiting ↔ .inl (.dispatch h) ∈ waiting := by
  simp [dispatches, List.mem_filterMap, dispatched?_eq_some]

theorem dispatches_split {h : Handle} {inner outer : List Handle} {waiting : List (Call ⊕ Loop)}
    (split : dispatches waiting = inner ++ h :: outer) :
    ∃ waiting₁ waiting₂, waiting = waiting₁ ++ .inl (.dispatch h) :: waiting₂ ∧
      dispatches waiting₂ = outer := by
  obtain ⟨first, last, rfl, -, found⟩ := List.filterMap_eq_append_iff.mp split
  obtain ⟨others, task, waiting₂, rfl, -, here, rest⟩ := List.filterMap_eq_cons_iff.mp found
  obtain rfl := dispatched?_eq_some.mp here
  exact ⟨first ++ others, waiting₂, by simp, rest⟩

def Endless (task : Call ⊕ Loop) : Prop :=
  ∀ past r u, ¬ Machine.Yields (idler policy).body ((idler policy).body task w) past r u

/-- On the way to the end of `task`, the pass comes to `task'` while the tasks `waiting` are in progress. -/
def Meets (task : Call ⊕ Loop) (waiting : List (Call ⊕ Loop)) (task' : Call ⊕ Loop) : Prop :=
  ∃ past, Machine.Arrives (idler policy).body (Script.perform task w) past waiting task' w

/-- Some node is dispatched, as the category that it is of, inside a dispatch of this node. -/
def Reenters (task : Call ⊕ Loop) : Prop :=
  ∃ waiting h h', Meets policy w task waiting (.inl (.dispatch h)) ∧ w.arena.Good h ∧
    .inl (.dispatch h') ∈ waiting ∧ h'.node = h.node

variable {policy} {w} {task task' task'' : Call ⊕ Loop} {waiting waiting' : List (Call ⊕ Loop)} {h : Handle}

theorem exists_yields_of_not_endless (ends : ¬ Endless policy w task) :
    ∃ past r u, Machine.Yields (idler policy).body ((idler policy).body task w) past r u := by
  simpa [Endless] using ends

theorem endless_iff_run (c : Call) :
    Endless policy w (.inl c) ↔ ∀ steps, (idler policy).run steps c w = none := by
  constructor
  · intro endless steps
    cases done : (idler policy).run steps c w with
    | none => rfl
    | some outcome =>
      obtain ⟨past, yields⟩ := Machine.yields_of_run done
      exact absurd yields (endless past _ _)
  · intro none past r u yields
    obtain ⟨steps, done, -⟩ := yields.run
    cases (none steps).symm.trans done

namespace Meets

theorem refl (task : Call ⊕ Loop) : Meets policy w task [] task :=
  ⟨[], .here⟩

theorem of_arrives {past : List (Moment (TaskReply Reply fun _ : Loop => Unit))}
    (arrives : Machine.Arrives (idler policy).body ((idler policy).body task w) past waiting task' w) :
    Meets policy w task (waiting ++ [task]) task' :=
  ⟨_, .inside arrives⟩

theorem of_calls {resume} (calls : (idler policy).body task w = .call task' w resume) :
    Meets policy w task [task] task' := by
  have arrives : Machine.Arrives (idler policy).body ((idler policy).body task w) [] [] task' w := by
    rw [calls]
    exact .here
  exact of_arrives arrives

theorem trans (first : Meets policy w task waiting task') (second : Meets policy w task' waiting' task'') :
    Meets policy w task (waiting' ++ waiting) task'' := by
  obtain ⟨past, arrives⟩ := first
  obtain ⟨past', arrives'⟩ := second
  cases arrives' with
  | here => exact ⟨past, arrives⟩
  | inside arrives' =>
    rw [List.append_assoc]
    exact ⟨_, arrives.trans arrives'⟩
  | later _ none => cases none

theorem of_waiting {inner outer : List (Call ⊕ Loop)} (meets : Meets policy w task waiting task'')
    (split : waiting = inner ++ task' :: outer) :
    Meets policy w task outer task' ∧ Meets policy w task' (inner ++ [task']) task'' := by
  obtain ⟨past, arrives⟩ := meets
  obtain ⟨past₁, past₂, v, first, second⟩ := arrives.of_waiting split
  obtain rfl : v = w := first.unmoved (idler_unmoved policy w) (.call .ok fun _ _ => rfl)
  exact ⟨⟨past₁, first⟩, .of_arrives second⟩

theorem inside (meets : Meets policy w task (waiting ++ [task]) task') :
    ∃ past, Machine.Arrives (idler policy).body ((idler policy).body task w) past waiting task' w := by
  obtain ⟨past, arrives⟩ := meets
  generalize all : waiting ++ [task] = waiting' at arrives
  cases arrives with
  | here => simp at all
  | inside arrives =>
    obtain rfl : waiting = _ := List.append_cancel_right all
    exact ⟨_, arrives⟩
  | later _ none => cases none

theorem endless (meets : Meets policy w task waiting task') (endless : Endless policy w task') :
    Endless policy w task := by
  intro past r u yields
  obtain ⟨_, arrives⟩ := meets
  obtain ⟨part, reply, u', inner, -⟩ := yields.perform.of_arrives arrives
  exact endless part reply u' inner

/-- A task that comes to itself would have to end before it ends. -/
theorem endless_of_again (meets : Meets policy w task (waiting ++ [task]) task) :
    Endless policy w task := by
  intro past r u yields
  obtain ⟨past', arrives⟩ := meets.inside
  obtain ⟨part, reply, u', inner, less⟩ := yields.of_arrives arrives
  obtain ⟨rfl, -, -⟩ := yields.unique inner
  exact Nat.lt_irrefl _ less

theorem good (meets : Meets policy w (.inl (.dispatch h)) (waiting ++ [.inl (.dispatch h)]) task) :
    w.arena.Good h := by
  by_contra bad
  obtain ⟨e, u, fails⟩ := idler_dispatch_of_not_good policy w bad
  obtain ⟨past, arrives⟩ := meets.inside
  rw [fails] at arrives
  cases arrives

theorem good_of_mem (meets : Meets policy w task waiting task') (mem : h ∈ dispatches waiting) :
    w.arena.Good h := by
  obtain ⟨inner, outer, split⟩ := List.append_of_mem (mem_dispatches.mp mem)
  exact (meets.of_waiting split).2.good

end Meets

/-- Coming back to a node that is still being dispatched goes on for ever. -/
theorem Reenters.endless (reenters : Reenters policy w task) : Endless policy w task := by
  obtain ⟨waiting, h, h', meets, good, mem, same⟩ := reenters
  obtain ⟨inner, outer, split⟩ := List.append_of_mem mem
  obtain ⟨first, second⟩ := meets.of_waiting split
  -- A node is of one category, so both dispatches are of the same handle.
  obtain rfl : h' = h := Arena.Good.eq second.good good same
  exact first.endless second.endless_of_again

/-- Of a run that ends, the dispatches in progress are of different nodes. -/
theorem Meets.length_dispatches_le (meets : Meets policy w task waiting task')
    (ends : ¬ Endless policy w task) : (dispatches waiting).length ≤ w.arena.size := by
  refine length_le_size (fun h => meets.good_of_mem) (nodup_nodes fun inner h outer split h' mem same => ?_)
  obtain ⟨waiting₁, waiting₂, rfl, rfl⟩ := dispatches_split split
  obtain ⟨first, second⟩ := meets.of_waiting rfl
  exact ends (Reenters.endless ⟨waiting₂, h, h', first, second.good, mem_dispatches.mp mem, same⟩)

section Cautious

/-- A task at which the pass is lost. -/
def Lost (policy : Policy) (w : World Unit) (task : Call ⊕ Loop) : Prop :=
  ∃ h, task = .inl (.enter h) ∧ Endless policy w task

open Classical in
/-- The idle pass with foresight: it turns back from an entry that would never end. -/
noncomputable def cautious (policy : Policy) (w : World Unit) : Visitor Unit where
  policy := fun _ => policy
  enter h := if Endless policy w (.inl (.enter h)) then pure () else Script.perform (Call.dispatch h)

theorem cautious_enter (endless : Endless policy w (.inl (.enter h))) :
    (cautious policy w).body (.inl (.enter h)) w = .finish (.ok ()) w := by
  have turns : (cautious policy w).enter h = pure () := if_pos endless
  rw [body, turns]
  rfl

theorem cautious_body (found : ¬ Lost policy w task) :
    (cautious policy w).body task = (idler policy).body task := by
  match task with
  | .inl (.enter h) =>
    have ends : ¬ Endless policy w (.inl (.enter h)) := fun endless => found ⟨h, rfl, endless⟩
    have goes : (cautious policy w).enter h = Script.perform (Call.dispatch h) := if_neg ends
    rw [body, goes]
    rfl
  | .inl (.dispatch _) | .inl (.walk ..) | .inr _ => rfl

theorem cautious_enter_ends (c : Handle) (past : List (Moment Reply)) :
    Ends (cautious policy w).body past (Script.perform (Sum.inl (Call.enter c)) w)
      (fun _ _ u => u = w) fun _ _ _ => True := by
  refine .call ?_
  by_cases endless : Endless policy w (.inl (.enter c))
  · rw [cautious_enter endless]
    exact .ok rfl
  · obtain ⟨more, r, u, yields⟩ := exists_yields_of_not_endless endless
    have same : (cautious policy w).body (.inl (.enter c)) = (idler policy).body (.inl (.enter c)) :=
      cautious_body fun ⟨h, _, lost⟩ => endless lost
    have agree : ∀ task, ¬ Lost policy w task → (cautious policy w).body task = (idler policy).body task :=
      fun _ => cautious_body
    rcases yields.divert agree with
      yields' | ⟨before, waiting, d, v, ⟨h, rfl, lost⟩, arrives, -⟩
    · refine ⟨more, r, u, same ▸ yields', ?_⟩
      cases r with
      | ok a => exact yields.unmoved (idler_unmoved policy w) (idler_unmoved policy w _) rfl
      | error e => trivial
    · obtain rfl := arrives.unmoved (idler_unmoved policy w) (idler_unmoved policy w _)
      exact absurd ((Meets.of_arrives arrives).endless lost) endless

/-- A walk that never ends enters a child from which it does not come back. -/
theorem walk_lost {owner : NodeId} {n : Node} (stored : w.arena.node owner = .ok n)
    (endless : Endless policy w (.inl (.walk n.tag owner))) :
    ∃ c waiting, Meets policy w (.inl (.walk n.tag owner)) waiting (.inl (.enter c)) ∧
      Endless policy w (.inl (.enter c)) := by
  have rule : (cautious policy w).Walkable owner n (fun _ _ u => u = w) fun _ _ _ => True :=
    { stored := fun here => here ▸ stored
      enter := fun here => here ▸ cautious_enter_ends _ _ }
  obtain ⟨more, r, u, yields, -⟩ : Ends (cautious policy w).body []
      ((cautious policy w).body (.inl (.walk n.tag owner)) w) (fun _ _ u => u = w) fun _ _ _ => True :=
    rule.walk_ends rfl
  have back : ∀ task, ¬ Lost policy w task → (idler policy).body task = (cautious policy w).body task :=
    fun _ found => (cautious_body found).symm
  rcases yields.divert back with yields' | ⟨before, waiting, d, v, ⟨c, rfl, lost⟩, -, arrives⟩
  · exact absurd yields' (endless more r u)
  · have same : (cautious policy w).body (.inl (.walk n.tag owner)) =
        (idler policy).body (.inl (.walk n.tag owner)) := rfl
    rw [same] at arrives
    obtain rfl := arrives.unmoved (idler_unmoved policy w) (idler_unmoved policy w _)
    exact ⟨c, _, .of_arrives arrives, lost⟩

end Cautious

theorem Endless.of_passing {resume} (endless : Endless policy w task)
    (calls : (idler policy).body task w = .call task' w resume)
    (passes : ∀ r u, ∃ r', resume r u = .finish r' u) : Endless policy w task' := by
  intro past r u yields
  obtain ⟨r', passed⟩ := passes r u
  have last : Machine.Yields (idler policy).body (resume r u) [] r' u := passed ▸ .finished r' u
  have whole := Machine.Yields.called yields last
  rw [← calls] at whole
  exact endless _ r' u whole

/-- An entry that never ends leads to another one, inside the dispatch of its handle. -/
theorem enter_lost (endless : Endless policy w (.inl (.enter h))) :
    w.arena.Good h ∧ ∃ c waiting, Meets policy w (.inl (.enter h)) waiting (.inl (.enter c)) ∧
      .inl (.dispatch h) ∈ waiting ∧ Endless policy w (.inl (.enter c)) := by
  have dispatch : Endless policy w (.inl (.dispatch h)) :=
    endless.of_passing (idler_enter policy w h) fun r u => ⟨r, rfl⟩
  by_cases good : w.arena.Good h
  · refine ⟨good, ?_⟩
    obtain ⟨n, shown⟩ := good
    have calls := idler_dispatch_of_shows policy w shown
    obtain ⟨c, waiting, meets, lost⟩ := walk_lost shown.1 (dispatch.of_passing calls fun r u => ⟨r, rfl⟩)
    have inside := (Meets.of_calls (idler_enter policy w h)).trans ((Meets.of_calls calls).trans meets)
    exact ⟨c, _, inside, by simp, lost⟩
  · obtain ⟨e, u, fails⟩ := idler_dispatch_of_not_good policy w good
    exact absurd (fails ▸ .finished _ u) (dispatch [] (.error e) u)

/-- The handles in `path` are dispatched on the way to `h`. There is room for so many more only, and then
the pass has to come back to one of their nodes. -/
theorem reenters_of_path (room : Nat) : ∀ (path : List Handle) {h : Handle} {waiting : List (Call ⊕ Loop)},
    Meets policy w task waiting (.inl (.enter h)) → Endless policy w (.inl (.enter h)) →
    (∀ g ∈ path, w.arena.Good g ∧ .inl (.dispatch g) ∈ waiting) → (path.map Handle.node).Nodup →
    w.arena.size < path.length + room → Reenters policy w task := by
  induction room with
  | zero =>
    intro path h waiting _ _ known apart full
    have fits := length_le_size (fun g mem => (known g mem).1) apart
    omega
  | succ room ih =>
    intro path h waiting meets endless known apart full
    obtain ⟨good, c, more, onward, dispatched, lost⟩ := enter_lost endless
    by_cases again : ∃ g ∈ path, g.node = h.node
    · obtain ⟨g, mem, same⟩ := again
      have here := meets.trans (Meets.of_calls (idler_enter policy w h))
      exact ⟨_, h, g, here, good, List.mem_append_right _ (known g mem).2, same⟩
    · refine ih (h :: path) (meets.trans onward) lost ?_ ?_ (by rw [List.length_cons]; omega)
      · intro g mem
        rcases List.mem_cons.mp mem with rfl | mem
        · exact ⟨good, List.mem_append_left _ dispatched⟩
        · exact ⟨(known g mem).1, List.mem_append_right _ (known g mem).2⟩
      · refine List.nodup_cons.mpr ⟨fun listed => ?_, apart⟩
        obtain ⟨g, mem, same⟩ := List.mem_map.mp listed
        exact again ⟨g, mem, same⟩

theorem endless_iff_reenters : Endless policy w (.inl (.enter h)) ↔ Reenters policy w (.inl (.enter h)) := by
  constructor
  · intro endless
    exact reenters_of_path (w.arena.size + 1) [] (.refl _) endless (by simp) List.nodup_nil (by simp)
  · exact Reenters.endless

theorem meets_of_history {steps : Nat} {c d : Call} {before after : List (Moment Reply)}
    (shown : (idler policy).history steps c w = before ++ .began d :: after) :
    ∃ waiting, Meets policy w (.inl c) waiting (.inl d) ∧
      inProgress before = waiting.filterMap Sum.getLeft? := by
  obtain ⟨past₁, past₂, split, rfl⟩ := Machine.visible_eq_append shown
  obtain ⟨waiting, u, arrives⟩ := Machine.arrives_of_history split
  obtain rfl : u = w := arrives.unmoved (idler_unmoved policy w) (.call .ok fun _ _ => rfl)
  exact ⟨waiting, ⟨past₁, arrives⟩, arrives.inProgress_visible⟩

theorem Meets.history {c d : Call} (meets : Meets policy w (.inl c) waiting (.inl d)) :
    ∃ steps before, (idler policy).history steps c w = before ++ [.began d] ∧
      inProgress before = waiting.filterMap Sum.getLeft? := by
  obtain ⟨past, arrives⟩ := meets
  obtain ⟨steps, shown⟩ := arrives.history
  refine ⟨steps, visible past, ?_, arrives.inProgress_visible⟩
  rw [Visitor.history, shown, Ends.visible_append]
  rfl

theorem idler_depth (policy : Policy) (w : World Unit) (start : Handle) :
    DepthLaw w.arena (fun steps => (idler policy).run steps (.enter start) w)
      fun steps => (idler policy).history steps (.enter start) w where
  dichotomy := by
    rw [← endless_iff_run]
    by_cases endless : Endless policy w (.inl (.enter start))
    · exact .inr endless
    · obtain ⟨past, r, u, yields⟩ := exists_yields_of_not_endless endless
      obtain ⟨steps, done, -⟩ := yields.run
      refine .inl ⟨⟨steps, _, done⟩, fun steps => length_dispatching_le fun before c after shown => ?_⟩
      obtain ⟨waiting, meets, progress⟩ := meets_of_history shown
      have below : (dispatches waiting).length ≤ w.arena.size := meets.length_dispatches_le endless
      rw [progress, List.filterMap_cons, filterMap_dispatched?]
      cases c.dispatched? with
      | none => exact Nat.le_succ_of_le below
      | some h => exact Nat.succ_le_succ below
  endless_iff := by
    rw [← endless_iff_run, endless_iff_reenters]
    constructor
    · rintro ⟨waiting, h, h', meets, good, mem, same⟩
      obtain ⟨steps, before, shown, progress⟩ := meets.history
      refine ⟨steps, before, h, h', shown, good, ?_, same⟩
      rw [dispatching, progress, filterMap_dispatched?]
      exact mem_dispatches.mpr mem
    · rintro ⟨steps, before, h, h', shown, good, mem, same⟩
      obtain ⟨waiting, meets, progress⟩ := meets_of_history shown
      rw [dispatching, progress, filterMap_dispatched?] at mem
      exact ⟨waiting, h, h', meets, good, mem_dispatches.mp mem, same⟩

end Visitor

section Transfer

variable {ω ω' ι ι' : Type} {ρ ρ' : Call → Type} {τ : ι → Type} {τ' : ι' → Type} {a : Arena}

def Moment.bare {κ : Type} {ρ : κ → Type} : Moment ρ → Moment fun _ : κ => Unit
  | .began c => .began c
  | .ended c _ => .ended c (.ok ())

theorem inProgress_bare {κ : Type} {ρ : κ → Type} (past : List (Moment ρ)) :
    inProgress (past.map Moment.bare) = inProgress past := by
  rw [inProgress, List.foldl_map, inProgress]
  congr
  funext running moment
  cases moment <;> rfl

theorem began_of_bare {past before : List (Moment ρ)} {past' : List (Moment ρ')} {c : Call}
    (same : past'.map Moment.bare = past.map Moment.bare) (begins : past = before ++ [.began c]) :
    ∃ before', past' = before' ++ [.began c] ∧ inProgress before' = inProgress before := by
  rw [begins, List.map_append] at same
  obtain ⟨before', last, rfl, start, final⟩ := List.map_eq_append_iff.mp same
  obtain ⟨moment, rfl, began⟩ := List.map_eq_singleton_iff.mp final
  cases moment with
  | began d =>
    cases began
    exact ⟨before', rfl, by rw [← inProgress_bare, start, inProgress_bare]⟩
  | ended => cases began

/-- The law of depth is about what calls are begun and ended, and whether the run is. -/
theorem DepthLaw.of_bare {α α' : Type} {run : Nat → Option α} {run' : Nat → Option α'}
    {shown : Nat → List (Moment ρ)} {shown' : Nat → List (Moment ρ')} (law : DepthLaw a run shown)
    (ends : ∀ steps, run' steps = none ↔ run steps = none)
    (same : ∀ steps, (shown' steps).map Moment.bare = (shown steps).map Moment.bare) :
    DepthLaw a run' shown' where
  dichotomy := by
    rcases law.dichotomy with ⟨⟨steps, outcome, done⟩, bounded⟩ | endless
    · refine .inl ⟨⟨steps, ?_⟩, fun steps => ?_⟩
      · rw [← Option.ne_none_iff_exists', ne_eq, ends, done]
        simp
      · rw [dispatching, ← inProgress_bare, same, inProgress_bare]
        exact bounded steps
    · exact .inr fun steps => (ends steps).mpr (endless steps)
  endless_iff := by
    have none : (∀ steps, run' steps = none) ↔ ∀ steps, run steps = none := forall_congr' ends
    rw [none, law.endless_iff]
    constructor
    · rintro ⟨steps, before, h, h', begins, good, mem, node⟩
      obtain ⟨before', begins', progress⟩ := began_of_bare (same steps) begins
      exact ⟨steps, before', h, h', begins', good, by rwa [dispatching, progress], node⟩
    · rintro ⟨steps, before, h, h', begins, good, mem, node⟩
      obtain ⟨before', begins', progress⟩ := began_of_bare (same steps).symm begins
      exact ⟨steps, before', h, h', begins', good, by rwa [dispatching, progress], node⟩

variable {k : Correspondence ω ω' (TaskReply ρ τ) (TaskReply ρ' τ')}
  {body : (task : Call ⊕ ι) → Script ω (TaskReply ρ τ) (TaskReply ρ τ task)}
  {body' : (task : Call ⊕ ι') → Script ω' (TaskReply ρ' τ') (TaskReply ρ' τ' task)}
  (lefts : ∀ {task task'}, k.call task task' → task'.getLeft? = task.getLeft?)

include lefts

theorem visible_bare {past : List (Moment (TaskReply ρ τ))} {past' : List (Moment (TaskReply ρ' τ'))}
    (shown : List.Forall₂ (Moment.Matches k) past past') :
    (visible past').map Moment.bare = (visible past).map Moment.bare := by
  rw [visible, visible, List.map_filterMap, List.map_filterMap]
  induction shown with
  | nil => rfl
  | @cons moment moment' past past' first _ ih =>
    have same : moment'.visible?.map Moment.bare = moment.visible?.map Moment.bare := by
      cases first with
      | @began task task' calls =>
        have left := lefts calls
        cases task <;> cases task' <;> cases left <;> rfl
      | @ended task task' _ _ calls =>
        have left := lefts calls
        cases task <;> cases task' <;> cases left <;> rfl
    rw [List.filterMap_cons, List.filterMap_cons, same, ih]

/-- Engines in step obey the law together. -/
theorem depthLaw_iff
    (bodies : ∀ task task', k.call task task' →
      Script.Matches k (k.reply task task') (body task) (body' task'))
    {c c' : Call} (calls : k.call (.inl c) (.inl c')) {w : ω} {w' : ω'} (worlds : k.world w w') :
    (DepthLaw a (fun steps => Machine.run body steps (.inl c) w)
        fun steps => visible (Machine.history body steps (.inl c) w)) ↔
      DepthLaw a (fun steps => Machine.run body' steps (.inl c') w')
        fun steps => visible (Machine.history body' steps (.inl c') w') := by
  have ends steps :
      Machine.run body' steps (.inl c') w' = none ↔ Machine.run body steps (.inl c) w = none := by
    have outcomes := (Machine.run_matches bodies steps calls worlds).1
    generalize Machine.run body' steps (.inl c') w' = outcome' at outcomes ⊢
    generalize Machine.run body steps (.inl c) w = outcome at outcomes ⊢
    cases outcomes <;> simp
  have same steps := visible_bare lefts (Machine.run_matches bodies steps calls worlds).2
  exact ⟨fun law => law.of_bare ends same,
    fun law => law.of_bare (fun steps => (ends steps).symm) fun steps => (same steps).symm⟩

end Transfer

section Onlookers

variable {σ : Type} (entered : Handle → σ → σ) (met : Tag → NodeId → σ → σ) (start : Handle)

theorem Visitor.onlooker_depth (policy : Policy) (w : World σ) :
    DepthLaw w.arena (fun steps => (onlooker policy entered met).run steps (.enter start) w)
      fun steps => (onlooker policy entered met).history steps (.enter start) w := by
  have bodies : ∀ task, Script.Matches (viewing fun _ : σ => ()) Eq
      ((onlooker policy entered met).body task)
      ((onlooker policy (fun _ s => s) fun _ _ s => s).body task) := by
    refine viewing_onlookers ?_ ?_ policy
    · exact fun _ _ => rfl
    · exact fun _ _ _ => rfl
  have lefts {task task' : Call ⊕ Loop} (same : (viewing fun _ : σ => ()).call task task') :
      task'.getLeft? = task.getLeft? := congrArg Sum.getLeft? (Eq.symm same)
  have same := Correspondence.same_bodies bodies
  exact (depthLaw_iff lefts same rfl rfl).mpr (idler_depth policy (w.viewed _) start)

theorem Transformer.onlooker_depth (w : World (Tally σ)) :
    DepthLaw w.arena (fun steps => (onlooker entered met).run steps (.enter start) w)
      fun steps => (onlooker entered met).history steps (.enter start) w := by
  have worlds : (sideBySide (fun _ => True) w.state.replaced).world w.uncounted w := ⟨trivial, rfl⟩
  have lefts {task : Call ⊕ Visitor.Loop} {task' : Call ⊕ Loop} (same : SameTask task task') :
      task'.getLeft? = task.getLeft? := by
    cases same <;> rfl
  exact (depthLaw_iff lefts (onlooker_bodies_match entered met w.state.replaced) (SameTask.call _) worlds).mp
    (Visitor.onlooker_depth entered met start .live w.uncounted)

end Onlookers

/-- In any arena and from any handle, the recorder of either policy and the default transforming pass
return, with at most one more dispatch in progress at any time than there are nodes, or they never return.
They never return exactly if they dispatch a node, as the category that it is of, while a dispatch of this
node is in progress. -/
theorem depth_dichotomy (start : Handle) :
    (∀ (policy : Policy) (w : World (List Handle)),
      DepthLaw w.arena (fun steps => (Visitor.recorder policy ∅).run steps (.enter start) w)
        fun steps => (Visitor.recorder policy ∅).history steps (.enter start) w) ∧
    ∀ {σ : Type} (w : World (Tally σ)),
      DepthLaw w.arena (fun steps => ({} : Transformer σ).run steps (.enter start) w)
        fun steps => ({} : Transformer σ).history steps (.enter start) w := by
  constructor
  · intro policy w
    rw [Visitor.recorder_eq_onlooker]
    exact Visitor.onlooker_depth _ _ start policy w
  · intro σ w
    exact Transformer.onlooker_depth (fun _ s => s) (fun _ _ s => s) start w

example :
    dispatching ((Visitor.recorder .live ∅).history 5 (.enter ⟨.statement, ⟨0⟩⟩)
        ⟨.ofList [⟨.block, ([⟨5⟩], ()), .dummy⟩], #[], []⟩) =
      [⟨.statement, ⟨5⟩⟩, ⟨.statement, ⟨0⟩⟩] := by
  rfl

end ProgramTree
