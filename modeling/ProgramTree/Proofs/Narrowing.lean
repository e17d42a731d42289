import ProgramTree.Proofs.Origins

/-!
The engines narrow a node to its variant before they read or write one of its places, each time anew
and after handlers have done what they like. Handlers may not change variants and may not remove
nodes, so the narrowing succeeds each time. All faults of a run are raised by handlers or by dispatches
of bad handles: no run ends with a mismatch of variants that no handler has raised, and a dangling handle
that no handler has raised is one that was dispatched (`narrowing_never_fails`).
-/

namespace ProgramTree

/-- Handlers that allocate and edit at will. Their calls may fail or succeed with anything. -/
def Manners.free {s : Type} {ρ : Call → Type} (inv : Arena → s → Prop) : Manners s ρ where
  inv := inv
  fit _ _ _ := True
  mayFail _ _ := True

theorem Manners.free_suits {s : Type} {ρ : Call → Type} (inv : Arena → s → Prop) :
    (Manners.free inv : Manners s ρ).Suits where
  walked _ _ := trivial
  unknown _ _ := trivial
  child _ _ _ _ _ _ := trivial

theorem Transformer.free_suits {σ : Type} {inv : Arena → σ → Prop}
    (stable : ∀ a b s, inv a s → a.Evolves b → inv b s) :
    Suits (.free fun a s => inv a s.own : Manners (Tally σ) Reply) where
  toSuits := Manners.free_suits _
  bump holds := holds
  store holds stored _ _ _ := stable _ _ _ holds (.put stored rfl)

/-- For both engines, any arena and any handlers that change it only by allocating and editing and walk
nodes only as the variants that they are. They may raise any faults, and may rely on an invariant of the
arena and their own state that further allocations and edits do not break. -/
theorem narrowing_never_fails {σ : Type} (inv : Arena → σ → Prop)
    (stable : ∀ a b s, inv a s → a.Evolves b → inv b s) :
    (∀ v : Visitor σ, v.Behaves (.free inv) → ∀ c w, inv w.arena w.state → c.Allowed w.arena →
      FaultLaw v.body v.Raises c w) ∧
    (∀ r : Transformer σ, r.Behaves (.free fun a s => inv a s.own) → ∀ c w, inv w.arena w.state.own →
      c.Allowed w.arena → FaultLaw r.body r.Raises c w) := by
  constructor
  · intro v behaves c w holds allowed
    exact behaves.faultLaw (Manners.free_suits inv) holds allowed
  · intro r behaves c w holds allowed
    exact behaves.faultLaw (Transformer.free_suits stable) holds allowed

def World.addStray {s : Type} (w : World s) : World s :=
  { w with
    arena := match w.arena.edit .block ⟨0⟩ fun record => (record.1 ++ [⟨9⟩], ()) with
      | .ok a => a
      | .error _ => w.arena }

theorem World.addStray_evolves {s : Type} (w : World s) : w.arena.Evolves w.addStray.arena := by
  rw [addStray]
  cases edited : w.arena.edit .block ⟨0⟩ fun record => (record.1 ++ [⟨9⟩], ()) with
  | ok a => exact .edit .refl edited
  | error e => exact .refl

/-- Passes that add a stray statement whenever a node is entered. -/
def Visitor.straying : Visitor Unit where
  enter h := do
    Script.update World.addStray
    Script.perform (Call.dispatch h)

def Transformer.straying : Transformer Unit where
  enter h := do
    Script.update World.addStray
    Script.perform (Call.dispatch h)

theorem Visitor.straying_behaves : Visitor.straying.Behaves (.free fun _ _ => True) where
  enter _ w _ := .call w.addStray_evolves trivial trivial
    (fun _ _ _ _ _ => .ok .refl trivial trivial) (fun _ _ _ _ _ => .error .refl trivial trivial)
  method _ n _ _ shown := .call .refl trivial ⟨n, shown.1, rfl⟩
    (fun _ _ _ _ _ => .ok .refl trivial trivial) (fun _ _ _ _ _ => .error .refl trivial trivial)

theorem Transformer.straying_behaves : Transformer.straying.Behaves (.free fun _ _ => True) where
  enter _ w _ := .call w.addStray_evolves trivial trivial
    (fun _ _ _ _ _ => .ok .refl trivial trivial) (fun _ _ _ _ _ => .error .refl trivial trivial)
  method _ n _ _ shown := .call .refl trivial ⟨n, shown.1, rfl⟩
    (fun _ _ _ _ _ => .ok .refl trivial trivial) (fun _ _ _ _ _ => .error .refl trivial trivial)

theorem Visitor.straying_not_raises (e : Fault) (c : Call) (u : World Unit) :
    ¬ Visitor.straying.Raises e c u := by
  have passes (reply : Except Fault Unit) (u : World Unit)
      (raises : Machine.Raises Visitor.straying.body e (.finish reply u)) : reply = .error e := by
    cases raises
    rfl
  cases c with
  | enter h => exact Machine.Raises.not_call passes
  | dispatch h => exact fun ⟨_, _, raises⟩ => Machine.Raises.not_call passes raises
  | walk t owner => exact id

theorem Transformer.straying_not_raises (e : Fault) (c : Call) (u : World (Tally Unit)) :
    ¬ Transformer.straying.Raises e c u := by
  cases c with
  | enter h =>
    refine Machine.Raises.not_call fun reply u raises => ?_
    cases raises
    rfl
  | dispatch h =>
    rintro ⟨n, -, raises⟩
    refine Machine.Raises.not_call (fun reply u raises => ?_) raises
    cases reply with
    | ok _ => cases raises
    | error e' =>
      cases raises
      rfl
  | walk t owner => exact id

def straySample {s : Type} (state : s) : World s where
  arena := .ofList [⟨.block, ([⟨1⟩], ()), .dummy⟩, ⟨.noopStatement, (), .dummy⟩]
  log := #[]
  state := state

/-- The fault comes from the dispatch of the stray statement. -/
theorem narrowing_never_fails_straySample :
    (∃ w', Visitor.straying.run 40 (.enter ⟨.statement, ⟨0⟩⟩) (straySample ()) =
        some (.error (.danglingHandle ⟨9⟩ 2), w')) ∧
    (∃ h u, Machine.Traces Visitor.straying.body (.danglingHandle ⟨9⟩ 2) (.enter ⟨.statement, ⟨0⟩⟩)
      (straySample ()) (.dispatch h) u ∧ h.node = ⟨9⟩ ∧ u.arena.size = 2) ∧
    (∃ w', Transformer.straying.run 40 (.enter ⟨.statement, ⟨0⟩⟩) (straySample ⟨0, ()⟩) =
        some (.error (.danglingHandle ⟨9⟩ 2), w')) ∧
    (∃ h u, Machine.Traces Transformer.straying.body (.danglingHandle ⟨9⟩ 2) (.enter ⟨.statement, ⟨0⟩⟩)
      (straySample ⟨0, ()⟩) (.dispatch h) u ∧ h.node = ⟨9⟩ ∧ u.arena.size = 2) := by
  have laws := narrowing_never_fails (fun _ (_ : Unit) => True) (fun _ _ _ _ _ => trivial)
  obtain ⟨w', visited⟩ : ∃ w', Visitor.straying.run 40 (.enter ⟨.statement, ⟨0⟩⟩) (straySample ()) =
      some (.error (.danglingHandle ⟨9⟩ 2), w') := ⟨_, rfl⟩
  obtain ⟨w'', transformed⟩ : ∃ w'', Transformer.straying.run 40 (.enter ⟨.statement, ⟨0⟩⟩)
      (straySample ⟨0, ()⟩) = some (.error (.danglingHandle ⟨9⟩ 2), w'') := ⟨_, rfl⟩
  refine ⟨⟨w', visited⟩, ?_, ⟨w'', transformed⟩, ?_⟩
  · have law := laws.1 _ Visitor.straying_behaves (.enter ⟨.statement, ⟨0⟩⟩) (straySample ()) trivial trivial
    obtain ⟨c, u, traces, raised | ⟨h, rfl, node, size, -⟩⟩ := law.dangling visited
    · exact absurd raised (Visitor.straying_not_raises _ c u)
    · exact ⟨h, u, traces, node, size⟩
  · have law := laws.2 _ Transformer.straying_behaves (.enter ⟨.statement, ⟨0⟩⟩) (straySample ⟨0, ()⟩)
      trivial trivial
    obtain ⟨c, u, traces, raised | ⟨h, rfl, node, size, -⟩⟩ := law.dangling transformed
    · exact absurd raised (Transformer.straying_not_raises _ c u)
    · exact ⟨h, u, traces, node, size⟩

/-- The pass that looks for node 77 whenever it has dispatched a handle. -/
def Visitor.prying : Visitor Unit where
  enter h := do
    Script.perform (Call.dispatch h)
    let _ ← Script.read fun w => w.arena.node ⟨77⟩

theorem Visitor.prying_behaves : Visitor.prying.Behaves (.free fun _ _ => True) where
  enter _ w _ := by
    refine .call .refl trivial trivial (fun _ w' _ _ _ => ?_)
      (fun _ _ _ _ _ => .error .refl trivial trivial)
    change Next.Behaves _ _ _ _ ((Script.read (fun w => w.arena.node ⟨77⟩) >>= fun _ => pure ()) w')
    rw [Script.bind_apply, Script.read]
    cases w'.arena.node ⟨77⟩ with
    | ok n => exact .ok .refl trivial trivial
    | error e => exact .error .refl trivial trivial
  method _ n _ _ shown := .call .refl trivial ⟨n, shown.1, rfl⟩
    (fun _ _ _ _ _ => .ok .refl trivial trivial) (fun _ _ _ _ _ => .error .refl trivial trivial)

theorem Visitor.prying_no_mismatch (id : NodeId) (expected found : Tag) (c : Call) (u : World Unit) :
    ¬ Visitor.prying.Raises (.variantMismatch id expected found) c u := by
  cases c with
  | enter h =>
    refine Machine.Raises.not_call fun reply u raises => ?_
    cases reply with
    | error e =>
      cases raises
      rfl
    | ok _ =>
      change Machine.Raises _ _ (Next.embed
        ((Script.read (fun w => w.arena.node ⟨77⟩) >>= fun _ => pure ()) u)) at raises
      rw [Script.bind_apply, Script.read] at raises
      cases looked : u.arena.node ⟨77⟩ with
      | ok n =>
        rw [looked] at raises
        cases raises
      | error e =>
        rw [looked, (Arena.size_le_of_node_error looked).2] at raises
        cases raises
  | dispatch h =>
    rintro ⟨n, -, raises⟩
    refine Machine.Raises.not_call (fun reply u raises => ?_) raises
    cases raises
    rfl
  | walk t owner => exact fun none => none

def noopSample : World Unit where
  arena := .ofList [⟨.noopStatement, (), .dummy⟩]
  log := #[]
  state := ()

/-- A handler that raises a dangling handle itself may name one that is never dispatched, though it
raises no mismatch. -/
theorem prying_names_undispatched :
    Visitor.prying.Behaves (.free fun _ _ => True) ∧
    (∀ id expected found c u, ¬ Visitor.prying.Raises (.variantMismatch id expected found) c u) ∧
    (∃ w', Visitor.prying.run 40 (.enter ⟨.statement, ⟨0⟩⟩) noopSample =
      some (.error (.danglingHandle ⟨77⟩ 1), w')) ∧
    ∀ h, .dispatch h ∈ calls (Visitor.prying.history 40 (.enter ⟨.statement, ⟨0⟩⟩) noopSample) →
      h.node ≠ ⟨77⟩ := by
  refine ⟨Visitor.prying_behaves, Visitor.prying_no_mismatch, ⟨_, rfl⟩, fun h mem => ?_⟩
  have shown : calls (Visitor.prying.history 40 (.enter ⟨.statement, ⟨0⟩⟩) noopSample) =
      [.enter ⟨.statement, ⟨0⟩⟩, .dispatch ⟨.statement, ⟨0⟩⟩, .walk .noopStatement ⟨0⟩] := rfl
  rw [shown] at mem
  obtain rfl : h = ⟨.statement, ⟨0⟩⟩ := by simpa using mem
  decide

end ProgramTree
