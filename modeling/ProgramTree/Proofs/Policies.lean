import ProgramTree.Proofs.Alongside
import ProgramTree.Proofs.Conduct

/-!
When the two policies come to the same. A copy of a sequence differs from the sequence itself only after
a handler has changed it. If no handler ever does, then a pass makes the same calls under both policies
and ends in the same way and in the same world, if it ends at all (`policies_agree`). Handlers may
allocate nodes, put others in the place of single children and change all else that nodes store.
-/

namespace ProgramTree

namespace Arena

/-- All nodes of `a` are in `b`, of the same variant and with the same sequences of children. -/
def Steady (a b : Arena) : Prop :=
  ∀ id n, a.node id = .ok n → ∃ m, b.node id = .ok m ∧ m.tag = n.tag ∧
    ∀ k lane, n.tag.lanes[k]? = some lane → lane.arity = .many → m.places k = n.places k

variable {a b c : Arena} {id : NodeId} {t : Tag}

theorem Steady.refl (a : Arena) : a.Steady a :=
  fun _ n stored => ⟨n, stored, rfl, fun _ _ _ _ => rfl⟩

theorem Steady.trans (first : a.Steady b) (second : b.Steady c) : a.Steady c := by
  intro id n stored
  obtain ⟨m, stored', tag, same⟩ := first id n stored
  obtain ⟨l, stored'', tag', same'⟩ := second id m stored'
  refine ⟨l, stored'', tag'.trans tag, fun k lane here many => ?_⟩
  rw [same' k lane (by rwa [tag]) many, same k lane here many]

theorem Steady.alloc (a : Arena) (n : Node) : a.Steady (a.alloc n).2 :=
  fun _ m stored => ⟨m, node_alloc_of_ok n stored, rfl, fun _ _ _ _ => rfl⟩

theorem Steady.edit {f : Record t.fields → Record t.fields} (edited : a.edit t id f = .ok b)
    (same : ∀ record (k : Nat) (lane : Lane), t.lanes[k]? = some lane → lane.arity = .many →
      ((f record).children t.fields)[k]? = (record.children t.fields)[k]?) : a.Steady b := by
  obtain ⟨n, _, stored, rfl, -⟩ := edit_cases edited
  obtain rfl := Except.ok.inj ((edit_of_node stored f).symm.trans edited)
  intro id' m stored'
  by_cases here : id = id'
  · subst here
    cases stored.symm.trans stored'
    refine ⟨_, node_put_self stored, rfl, fun k lane here many => ?_⟩
    exact congrArg (Option.getD · []) (same n.record k lane here many)
  · exact ⟨m, by rw [node_put_ne here, stored'], rfl, fun _ _ _ _ => rfl⟩

end Arena

theorem World.places_of_steady {σ : Type} {t : Tag} {owner : NodeId} {lane : Lane} {k : Nat}
    {w u : World σ} {places : List (Option NodeId)} (steady : w.arena.Steady u.arena)
    (here : t.lanes[k]? = some lane) (many : lane.arity = .many)
    (all : World.places t owner k w = .ok places) :
    World.places t owner k u = World.places t owner k w := by
  cases got : w.arena.get t owner with
  | error e => simp [World.places, got, Except.map] at all
  | ok record =>
    obtain ⟨n, stored, rfl⟩ := Arena.node_of_get got
    obtain ⟨m, stored', tag, same⟩ := steady owner n stored
    have read := World.places_of_node stored' k
    rw [tag] at read
    rw [read, World.places_of_node stored, same k lane here many]

/-- From the arena `a` on, each stretch of the code leaves the sequences of all nodes alone, as long as
its calls do. -/
inductive Next.Steady {σ κ α : Type} {ρ : κ → Type} : Arena → Next (World σ) ρ α → Prop where
  | finish {a : Arena} {r : Except Fault α} {w : World σ} : a.Steady w.arena → Steady a (.finish r w)
  | call {a : Arena} {c : κ} {w : World σ}
      {resume : Except Fault (ρ c) → World σ → Next (World σ) ρ α} :
      a.Steady w.arena → (∀ r u, w.arena.Steady u.arena → Steady u.arena (resume r u)) →
      Steady a (.call c w resume)

namespace Visitor

variable {σ : Type}

/-- The handlers leave the sequences of all nodes alone. -/
structure Steady (v : Visitor σ) : Prop where
  enter : ∀ h w, (v.enter h w).Steady w.arena
  method : ∀ t id w, (v.method t id w).Steady w.arena

/-- Two runs in the same world, in which all sequences stay as they are. -/
def steadily (σ : Type) : Bond (World σ) (World σ) Reply where
  pre _ w w' := w' = w
  post _ w _ _ u u' := u' = u ∧ w.arena.Steady u.arena

theorem alongside_of_steady {start a : Arena} {next : Next (World σ) Reply Unit} (v v' : Visitor σ)
    (before : start.Steady a) (steady : next.Steady a) :
    Next.Alongside (steadily σ) v.body v'.body (fun _ u u' => u' = u ∧ start.Steady u.arena) next.embed
      next.embed := by
  induction steady with
  | finish holds => exact .finish ⟨rfl, before.trans holds⟩
  | call holds _ ih =>
    refine .call rfl ?_
    rintro r _ u ⟨rfl, still⟩
    exact ih r u still ((before.trans holds).trans still)

/-- A walk reads the same on both sides, and no sequence changes under it. -/
theorem steadily_abreast (t : Tag) (owner : NodeId) (start : Arena) :
    Abreast (steadily σ) t owner (fun u u' => u' = u ∧ start.Steady u.arena)
      (fun _ u u' => u' = u ∧ start.Steady u.arena) where
  reads _ holds := by rw [holds.1]
  lost holds _ := holds
  enter := by
    rintro k lane _ w hs h here ⟨rfl, before⟩ reads -
    refine ⟨rfl, ?_⟩
    rintro r _ u ⟨rfl, still⟩
    cases r with
    | error e => exact ⟨rfl, before.trans still⟩
    | ok _ =>
      refine ⟨⟨rfl, before.trans still⟩, fun many => ?_⟩
      obtain ⟨places, all, -⟩ := World.places_of_held reads
      have same := World.places_of_steady still here many all
      exact ⟨same, same⟩

namespace Steady

variable {v : Visitor σ} (steady : v.Steady)

include steady

theorem joins (p q : σ → Policy) :
    (steadily σ).Joins { v with policy := p }.body { v with policy := q }.body := by
  rintro c _ w rfl
  cases c with
  | enter h => exact alongside_of_steady _ _ (.refl _) (steady.enter h w)
  | walk t owner =>
    refine ((steadily_abreast t owner w.arena).walk _ _ ⟨rfl, .refl _⟩).mono fun r u u' ends => ?_
    cases r <;> exact ends
  | dispatch h =>
    have frame := (World.classify_frame h w).1
    rw [body, body]
    cases found : World.classify h w with
    | mk r u =>
      rw [found] at frame
      cases r with
      | error e =>
        rw [Script.step_bind_error found]
        exact .finish ⟨rfl, by rw [frame]; exact .refl _⟩
      | ok t =>
        rw [Script.step_bind found]
        exact alongside_of_steady _ _ (by rw [frame]; exact .refl _) (steady.method t h.node u)

theorem run (p q : σ → Policy) {steps : Nat} {c : Call} {w u : World σ} {r : Except Fault Unit}
    (done : { v with policy := p }.run steps c w = some (r, u)) :
    ∃ steps', { v with policy := q }.run steps' c w = some (r, u) ∧
      { v with policy := q }.history steps' c w = { v with policy := p }.history steps c w := by
  obtain ⟨steps', u', done', ⟨rfl, -⟩, same⟩ := (steady.joins p q).run rfl done
  exact ⟨steps', done', same⟩

end Steady

end Visitor

/-- A pass whose handlers change no sequence of children runs alike under any two policies, which may go
from live to snapshot and back on the way: one run comes to an end if the other does, with the same result
in the same world, and after the same calls with the same replies. -/
theorem policies_agree {σ : Type} (v : Visitor σ) (steady : v.Steady) (p q : σ → Policy) (c : Call)
    (w : World σ) (outcome : Except Fault Unit × World σ) (past : List (Moment Visitor.Reply)) :
    (∃ steps, { v with policy := p }.run steps c w = some outcome ∧
        { v with policy := p }.history steps c w = past) ↔
      ∃ steps, { v with policy := q }.run steps c w = some outcome ∧
        { v with policy := q }.history steps c w = past := by
  constructor
  · rintro ⟨steps, done, rfl⟩
    exact steady.run p q done
  · rintro ⟨steps, done, rfl⟩
    exact steady.run q p done

def redirected (a : Arena) (id : NodeId) : Arena :=
  match a.edit .expressionStatement id fun _ => (⟨3⟩, ()) with
  | .ok b => b
  | .error _ => a

/-- The pass that adds a node whenever it enters one, and redirects the statements it enters. -/
def redirectingPass : Visitor (List Handle) where
  enter h := do
    Script.update fun w =>
      { w with
        arena := ((redirected w.arena h.node).alloc ⟨.noopStatement, (), .dummy⟩).2
        state := w.state ++ [h] }
    Script.perform (Call.dispatch h)

theorem redirected_steady (a : Arena) (id : NodeId) : a.Steady (redirected a id) := by
  rw [redirected]
  cases edited : a.edit .expressionStatement id fun _ => (⟨3⟩, ()) with
  | error e => exact .refl a
  | ok b =>
    refine .edit edited fun record k lane here many => ?_
    have single : ∀ lane ∈ Tag.expressionStatement.lanes, lane.arity ≠ .many := by decide
    exact absurd many (single lane (List.mem_of_getElem? here))

theorem redirectingPass_steady : redirectingPass.Steady where
  enter _ _ := .call ((redirected_steady _ _).trans (.alloc _ _)) fun _ _ _ => .finish (.refl _)
  method _ _ _ := .call (.refl _) fun _ _ _ => .finish (.refl _)

def statementSample (expression : NodeId) (added : Nat) (entered : List Handle) :
    World (List Handle) where
  arena := .ofList ([⟨.block, ([⟨1⟩], ()), .dummy⟩, ⟨.expressionStatement, (expression, ()), .dummy⟩,
    ⟨.advanceClock, (), .dummy⟩, ⟨.commaSeparatedList, ([], ()), .dummy⟩] ++
      List.replicate added ⟨.noopStatement, (), .dummy⟩)
  log := #[]
  state := entered

theorem policies_agree_redirectingPass :
    ∃ steps, { redirectingPass with policy := fun _ => .snapshot }.run steps (.enter ⟨.statement, ⟨0⟩⟩)
          (statementSample ⟨2⟩ 0 []) =
        some (.ok (), statementSample ⟨3⟩ 3
          [⟨.statement, ⟨0⟩⟩, ⟨.statement, ⟨1⟩⟩, ⟨.expression, ⟨3⟩⟩]) ∧
      { redirectingPass with policy := fun _ => .snapshot }.history steps (.enter ⟨.statement, ⟨0⟩⟩)
          (statementSample ⟨2⟩ 0 []) =
        redirectingPass.history 40 (.enter ⟨.statement, ⟨0⟩⟩) (statementSample ⟨2⟩ 0 []) :=
  (policies_agree redirectingPass redirectingPass_steady _ _ _ _ _ _).mp ⟨40, rfl, rfl⟩

end ProgramTree
