import ProgramTree.Proofs.Alongside
import ProgramTree.Proofs.Census
import ProgramTree.Proofs.Onlooking

/-!
What a traversal cannot see. It goes by the variants and the children of the nodes that it reaches, and
by the size of the arena when a handle leads nowhere. Links, names, literals and spans, and all nodes that
are not reached, may be anything (`traversal_sees_shape_only`). The walks over two such arenas need not
take the same steps, as the empty slots between the children may lie elsewhere.
-/

namespace ProgramTree

/-- Arenas of one size in which all that is reached from `root` in `a` is of the same variant and has the
same children. -/
structure Arena.SameShape (a b : Arena) (root : Handle) : Prop where
  size : b.size = a.size
  node : ∀ h n, Reaches a root h → a.node h.node = .ok n →
    ∃ m, b.node h.node = .ok m ∧ m.tag = n.tag ∧ m.rows = n.rows

def World.on {σ : Type} (b : Arena) (w : World σ) : World σ :=
  { w with arena := b }

/-- The call is about something that is reached. -/
inductive Call.Reached (a : Arena) (root : Handle) : Call → Prop where
  | enter {h : Handle} : Reaches a root h → Reached a root (.enter h)
  | dispatch {h : Handle} : Reaches a root h → Reached a root (.dispatch h)
  | walk {h : Handle} {n : Node} :
      Reaches a root h → a.Shows h n → Reached a root (.walk n.tag h.node)

theorem Node.mem_children_of_held {n : Node} {k : Nat} {lane : Lane} {h : Handle}
    (here : n.tag.lanes[k]? = some lane) (held : h ∈ lane.held (n.places k)) : h ∈ n.children :=
  List.mem_flatMap.mpr ⟨_, List.mem_of_getElem? (Node.getElem?_rows here), held⟩

namespace Arena.SameShape

variable {σ : Type} {a b : Arena} {root h : Handle} {n : Node} {w : World σ}
  (same : a.SameShape b root)

include same

theorem node_error {e : Fault} (missing : a.node h.node = .error e) : b.node h.node = .error e := by
  obtain ⟨beyond, rfl⟩ := Arena.size_le_of_node_error missing
  rw [Arena.node, Array.getElem?_eq_none (by rw [← same.size] at beyond; exact beyond), same.size]

theorem classify (reached : Reaches a root h) (here : w.arena = a) :
    World.classify h (w.on b) = ((World.classify h w).1, (World.classify h w).2.on b) := by
  subst here
  unfold World.classify
  cases found : w.arena.node h.node with
  | error e =>
    have missing : (w.on b).arena.node h.node = .error e := same.node_error found
    rw [missing]
  | ok n =>
    obtain ⟨m, stored, tag, -⟩ := same.node h n reached found
    have stored' : (w.on b).arena.node h.node = .ok m := stored
    rw [stored']
    dsimp only
    rw [tag]
    split <;> rfl

theorem held (reached : Reaches a root h) (shown : a.Shows h n) (here : w.arena = a) {k : Nat}
    {lane : Lane} (lanes : n.tag.lanes[k]? = some lane) :
    World.held n.tag h.node lane k (w.on b) = World.held n.tag h.node lane k w := by
  subst here
  obtain ⟨m, stored, tag, rows⟩ := same.node h n reached shown.1
  have stored' : (w.on b).arena.node h.node = .ok m := stored
  have read := World.held_of_places lane (World.places_of_node stored' k)
  have row : m.rows[k]? = n.rows[k]? := by rw [rows]
  rw [Node.getElem?_rows lanes, Node.getElem?_rows (by rwa [tag])] at row
  rw [tag] at read
  rw [read, World.held_of_places lane (World.places_of_node shown.1 k)]
  exact congrArg Except.ok (Row.mk.inj (Option.some.inj row)).2

end Arena.SameShape

namespace Visitor

variable {σ : Type} {a b : Arena} {root : Handle} {v : Visitor σ}

/-- Two runs that are only told apart by their arenas. -/
def unseen (σ : Type) (a b : Arena) (root : Handle) : Bond (World σ) (World σ) Reply where
  pre c w w' := w.arena = a ∧ w' = w.on b ∧ c.Reached a root
  post _ _ _ _ u u' := u.arena = a ∧ u' = u.on b

/-- The handlers do the same in both arenas. -/
structure Blind (v : Visitor σ) (a b : Arena) (root : Handle) : Prop where
  enter : ∀ h w, Reaches a root h → w.arena = a →
    Next.Alongside (unseen σ a b root) v.body v.body (fun _ u u' => u.arena = a ∧ u' = u.on b)
      ((v.enter h).embed w) ((v.enter h).embed (w.on b))
  method : ∀ h n w, Reaches a root h → a.Shows h n → w.arena = a →
    Next.Alongside (unseen σ a b root) v.body v.body (fun _ u u' => u.arena = a ∧ u' = u.on b)
      ((v.method n.tag h.node).embed w) ((v.method n.tag h.node).embed (w.on b))

theorem unseen_abreast (same : a.SameShape b root) {h : Handle} {n : Node} (reached : Reaches a root h)
    (shown : a.Shows h n) :
    Abreast (unseen σ a b root) n.tag h.node (fun u u' => u.arena = a ∧ u' = u.on b)
      (fun _ u u' => u.arena = a ∧ u' = u.on b) where
  reads := by
    rintro k lane w _ lanes ⟨here, rfl⟩
    exact same.held reached shown here lanes
  lost holds _ := holds
  enter := by
    rintro k lane w _ hs c lanes ⟨here, rfl⟩ reads member
    have stored : w.arena.node h.node = .ok n := by rw [here, shown.1]
    rw [World.held_of_places lane (World.places_of_node stored k)] at reads
    cases reads
    refine ⟨⟨here, rfl, .enter (.child reached shown (Node.mem_children_of_held lanes member))⟩, ?_⟩
    rintro r u _ ⟨still, rfl⟩
    cases r with
    | error e => exact ⟨still, rfl⟩
    | ok _ =>
      refine ⟨⟨still, rfl⟩, fun _ => ⟨?_, rfl⟩⟩
      rw [World.places, World.places, still, here]

theorem Blind.joins (blind : v.Blind a b root) (same : a.SameShape b root) :
    (unseen σ a b root).Joins v.body v.body := by
  rintro c w _ ⟨here, rfl, reached⟩
  cases reached with
  | enter reached => exact blind.enter _ w reached here
  | walk reached shown =>
    refine ((unseen_abreast same reached shown).walk v v ⟨here, rfl⟩).mono fun r u u' ends => ?_
    cases r <;> exact ends
  | @dispatch h reached =>
    have alike := same.classify reached here
    by_cases good : a.Good h
    · obtain ⟨n, shown⟩ := good
      have found : World.classify h w = (.ok n.tag, w) := by
        rw [← here] at shown
        exact World.classify_of_shows shown
      rw [found] at alike
      rw [body, Script.step_bind found, Script.step_bind alike]
      exact blind.method h n w reached shown here
    · rw [← here] at good
      obtain ⟨e, u, -, found⟩ := World.classify_of_not_good good
      have frame := (World.classify_frame h w).1
      rw [found] at alike frame
      rw [body, Script.step_bind_error found, Script.step_bind_error alike]
      exact .finish ⟨frame.trans here, rfl⟩

end Visitor

/-- Whatever one of the two comes to in some number of steps, the other one comes to as well. -/
def SameOutcomes {β : Type} (run run' : Nat → Option β) : Prop :=
  ∀ outcome, (∃ steps, run steps = some outcome) ↔ ∃ steps, run' steps = some outcome

theorem SameOutcomes.map {β γ : Type} {run run' : Nat → Option β} (same : SameOutcomes run run')
    (f : β → γ) : SameOutcomes (fun steps => (run steps).map f) fun steps => (run' steps).map f := by
  intro outcome
  constructor
  · rintro ⟨steps, done⟩
    obtain ⟨o, ran, rfl⟩ := Option.map_eq_some_iff.mp done
    obtain ⟨steps', ran'⟩ := (same o).mp ⟨steps, ran⟩
    exact ⟨steps', Option.map_eq_some_iff.mpr ⟨o, ran', rfl⟩⟩
  · rintro ⟨steps, done⟩
    obtain ⟨o, ran, rfl⟩ := Option.map_eq_some_iff.mp done
    obtain ⟨steps', ran'⟩ := (same o).mpr ⟨steps, ran⟩
    exact ⟨steps', Option.map_eq_some_iff.mpr ⟨o, ran', rfl⟩⟩

def observed {α σ : Type} : α × World σ → α × Array Event × σ :=
  fun (r, u) => (r, u.log, u.state)

theorem Visitor.Blind.sameOutcomes {σ : Type} {v : Visitor σ} {a b : Arena} {root : Handle}
    (blind : v.Blind a b root) (same : a.SameShape b root) (log : Array Event) (s : σ) :
    SameOutcomes (fun steps => (v.run steps (.enter root) ⟨a, log, s⟩).map observed)
      fun steps => (v.run steps (.enter root) ⟨b, log, s⟩).map observed := by
  have joins := blind.joins same
  have pre : (Visitor.unseen σ a b root).pre (.enter root) ⟨a, log, s⟩ ⟨b, log, s⟩ :=
    ⟨rfl, rfl, .enter .root⟩
  intro outcome
  constructor
  · rintro ⟨steps, done⟩
    obtain ⟨⟨r, u⟩, ran, rfl⟩ := Option.map_eq_some_iff.mp done
    obtain ⟨steps', _, ran', ⟨-, rfl⟩, -⟩ := joins.run pre ran
    exact ⟨steps', Option.map_eq_some_iff.mpr ⟨_, ran', rfl⟩⟩
  · rintro ⟨steps, done⟩
    obtain ⟨⟨r, u⟩, ran, rfl⟩ := Option.map_eq_some_iff.mp done
    obtain ⟨steps', u', ran', ⟨-, rfl⟩, -⟩ := joins.flip.run pre ran
    exact ⟨steps', Option.map_eq_some_iff.mpr ⟨_, ran', rfl⟩⟩

section Blind

variable {σ : Type} {a b : Arena} {root : Handle}

theorem Visitor.onlooker_blind (policy : Policy) (entered : Handle → σ → σ)
    (met : Tag → NodeId → σ → σ) : (Visitor.onlooker policy entered met).Blind a b root where
  enter _ _ reached here := .call ⟨here, rfl, .dispatch reached⟩ fun _ _ _ post => .finish post
  method _ _ _ reached shown here :=
    .call ⟨here, rfl, .walk reached shown⟩ fun _ _ _ post => .finish post

theorem Census.enter_eq (h : Handle) (w : World (List Tag)) :
    Census.visitor.enter h w =
      match w.arena.node h.node with
      | .error e => .finish (.error e) w
      | .ok n => .call (.dispatch h) { w with state := n.tag :: w.state } .finish := by
  change (Script.read (fun w : World (List Tag) => w.arena.node h.node) >>= _) w = _
  rw [Script.bind_apply, Script.read]
  cases w.arena.node h.node <;> rfl

/-- The census looks at a node before it is dispatched, but only at its variant. -/
theorem Census.visitor_blind (same : a.SameShape b root) : Census.visitor.Blind a b root where
  method _ _ _ reached shown here :=
    .call ⟨here, rfl, .walk reached shown⟩ fun _ _ _ post => .finish post
  enter h w reached here := by
    subst here
    rw [Script.embed, Script.embed, Census.enter_eq, Census.enter_eq]
    cases found : w.arena.node h.node with
    | error e =>
      have missing : (w.on b).arena.node h.node = .error e := same.node_error found
      rw [missing]
      exact .finish ⟨rfl, rfl⟩
    | ok n =>
      obtain ⟨m, stored, tag, -⟩ := same.node h n reached found
      have stored' : (w.on b).arena.node h.node = .ok m := stored
      rw [stored']
      dsimp only
      rw [tag]
      exact .call ⟨rfl, rfl, .dispatch reached⟩ fun _ _ _ post => .finish post

theorem Transformer.onlooker_observed (entered : Handle → σ → σ) (met : Tag → NodeId → σ → σ)
    (steps : Nat) (c : Call) (log : Array Event) (s : Tally σ) :
    ((Transformer.onlooker entered met).run steps c ⟨a, log, s⟩).map observed =
      (((Visitor.onlooker .live entered met).run steps c ⟨a, log, s.own⟩).map observed).map
        fun (r, log', own) => (r.map fun _ => Transformer.kept (.inl c), log', ⟨s.replaced, own⟩) := by
  have world : (⟨a, log, s⟩ : World (Tally σ)) = World.counted s.replaced ⟨a, log, s.own⟩ := rfl
  rw [world, Transformer.onlooker_run, Option.map_map, Option.map_map]
  rfl

theorem census_observed (steps : Nat) (root : NodeId) (log : Array Event) (s : σ) :
    (census steps root ⟨a, log, s⟩).map observed =
      ((Census.visitor.run steps (.enter ⟨.module, root⟩)
          ⟨a, log.push (.started .traverse root), []⟩).map observed).map
        fun (r, log', seen) => (r.map fun _ => Census.counts seen, log', s) := by
  rw [census, Option.map_map, Option.map_map]
  rfl

end Blind

/-- Two arenas with the same shape from `start` on look the same to every pass that only looks on, under
either policy and in either engine, and to the census. Each run comes to an end in one arena if it does in
the other, with the same result and the same notes. -/
theorem traversal_sees_shape_only {a b : Arena} {start : Handle} (same : a.SameShape b start)
    (log : Array Event) :
    (∀ (σ : Type) (policy : Policy) (entered : Handle → σ → σ) (met : Tag → NodeId → σ → σ) (s : σ),
      SameOutcomes
        (fun steps => ((Visitor.onlooker policy entered met).run steps (.enter start)
          ⟨a, log, s⟩).map observed)
        fun steps => ((Visitor.onlooker policy entered met).run steps (.enter start)
          ⟨b, log, s⟩).map observed) ∧
    (∀ (σ : Type) (entered : Handle → σ → σ) (met : Tag → NodeId → σ → σ) (s : Tally σ),
      SameOutcomes
        (fun steps => ((Transformer.onlooker entered met).run steps (.enter start)
          ⟨a, log, s⟩).map observed)
        fun steps => ((Transformer.onlooker entered met).run steps (.enter start)
          ⟨b, log, s⟩).map observed) ∧
    ∀ (σ : Type) (root : NodeId) (s : σ), start = ⟨.module, root⟩ →
      SameOutcomes (fun steps => (census steps root ⟨a, log, s⟩).map observed)
        fun steps => (census steps root ⟨b, log, s⟩).map observed := by
  refine ⟨fun σ policy entered met s => ?_, fun σ entered met s => ?_, ?_⟩
  · exact (Visitor.onlooker_blind policy entered met).sameOutcomes same log s
  · have noted (x : Arena) := funext fun steps =>
      Transformer.onlooker_observed (a := x) entered met steps (.enter start) log s
    rw [noted a, noted b]
    exact ((Visitor.onlooker_blind .live entered met).sameOutcomes same log s.own).map _
  · rintro σ root s rfl
    simp only [census_observed]
    exact ((Census.visitor_blind same).sameOutcomes same (log.push (.started .traverse root)) []).map _

def linkSample (name : String) (link : NodeId) (apart : Node) : Arena :=
  .ofList [⟨.nameSpace, (name, [], [], [], [⟨1⟩], [], ()), .dummy⟩, ⟨.variableRef, (link, ()), .dummy⟩, apart]

theorem reaches_linkSample {name : String} {link : NodeId} {apart : Node} {h : Handle}
    (reached : Reaches (linkSample name link apart) ⟨.module, ⟨0⟩⟩ h) :
    h = ⟨.module, ⟨0⟩⟩ ∨ h = ⟨.expression, ⟨1⟩⟩ := by
  induction reached with
  | root => exact .inl rfl
  | child _ shown member ih =>
    rcases ih with rfl | rfl
    · cases shown.1
      exact .inr (List.mem_singleton.mp member)
    · cases shown.1
      cases member

theorem sameShape_linkSample (name name' : String) (link link' : NodeId) (apart apart' : Node) :
    (linkSample name link apart).SameShape (linkSample name' link' apart') ⟨.module, ⟨0⟩⟩ where
  size := rfl
  node h n reached stored := by
    rcases reaches_linkSample reached with rfl | rfl
    · cases stored
      exact ⟨_, rfl, rfl, rfl⟩
    · cases stored
      exact ⟨_, rfl, rfl, rfl⟩

/-- The census of the second module does not follow its link, as that of the first one does not. -/
theorem traversal_sees_shape_only_linkSample :
    ∃ steps, (census steps ⟨0⟩ ⟨linkSample "b" ⟨2⟩ ⟨.block, ([⟨0⟩], ()), .dummy⟩, #[], ()⟩).map observed =
      some (.ok [(.nameSpace, 1), (.variableRef, 1)], #[.started .traverse ⟨0⟩], ()) :=
  ((traversal_sees_shape_only (sameShape_linkSample "a" "b" ⟨0⟩ ⟨2⟩ ⟨.noopStatement, (), .dummy⟩
    ⟨.block, ([⟨0⟩], ()), .dummy⟩) #[]).2.2 Unit ⟨0⟩ () rfl _).mp ⟨40, rfl⟩

end ProgramTree
