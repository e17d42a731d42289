import ProgramTree.Proofs.History
import ProgramTree.Proofs.Unfolding

/-!
How the engines walk the children of a node. A walk goes from place to place, and all that it does
follows from what happens at one place. `Visitor.walk_ends` and `Transformer.walk_ends` say so for
the two engines: an invariant that entering one child carries to the next place holds at the end of
the walk, and the walk comes to its end. They are stated with `Ends`, which is about complete runs
of a piece of code.
-/

namespace ProgramTree

section Ends

variable {ω κ ι α β : Type} {ρ : κ → Type} {τ : ι → Type}

/-- After `past`, the code comes to its end, with `good` when it succeeds and `bad` when it fails. -/
def Ends (body : (task : κ ⊕ ι) → Script ω (TaskReply ρ τ) (TaskReply ρ τ task))
    (past : List (Moment ρ)) (next : Next ω (TaskReply ρ τ) α)
    (good : List (Moment ρ) → α → ω → Prop) (bad : List (Moment ρ) → Fault → ω → Prop) : Prop :=
  ∃ more r w, Machine.Yields body next more r w ∧
    match r with
    | .ok a => good (past ++ visible more) a w
    | .error e => bad (past ++ visible more) e w

theorem Script.read_bind {f : ω → Except Fault α} {a : α} {w : ω} (reads : f w = .ok a)
    (g : α → Script ω ρ β) : (Script.read f >>= g) w = g a w := by
  rw [Script.bind_apply, Script.read, reads, Next.bind_finish_ok]

theorem Script.step_bind {f : ω → Except Fault α × ω} {a : α} {w w' : ω} (steps : f w = (.ok a, w'))
    (g : α → Script ω ρ β) : (Script.step f >>= g) w = g a w' := by
  rw [Script.bind_apply, Script.step, steps, Next.bind_finish_ok]

theorem Script.step_bind_error {f : ω → Except Fault α × ω} {e : Fault} {w w' : ω}
    (steps : f w = (.error e, w')) (g : α → Script ω ρ β) :
    (Script.step f >>= g) w = .finish (.error e) w' := by
  rw [Script.bind_apply, Script.step, steps, Next.bind_finish_error]

namespace Ends

variable {body : (task : κ ⊕ ι) → Script ω (TaskReply ρ τ) (TaskReply ρ τ task)}
  {past : List (Moment ρ)} {good : List (Moment ρ) → α → ω → Prop}
  {bad : List (Moment ρ) → Fault → ω → Prop} {w : ω}

theorem visible_append (past later : List (Moment (TaskReply ρ τ))) :
    visible (past ++ later) = visible past ++ visible later :=
  List.filterMap_append

theorem ok {a : α} (holds : good past a w) : Ends body past (.finish (.ok a) w) good bad :=
  ⟨[], .ok a, w, .finished _ w, by simpa [visible] using holds⟩

theorem error {e : Fault} (holds : bad past e w) : Ends body past (.finish (.error e) w) good bad :=
  ⟨[], .error e, w, .finished _ w, by simpa [visible] using holds⟩

theorem mono {good' : List (Moment ρ) → α → ω → Prop} {bad' : List (Moment ρ) → Fault → ω → Prop}
    {next : Next ω (TaskReply ρ τ) α} (ends : Ends body past next good bad)
    (goods : ∀ past a w, good past a w → good' past a w)
    (bads : ∀ past e w, bad past e w → bad' past e w) : Ends body past next good' bad' := by
  obtain ⟨more, r, w, yields, holds⟩ := ends
  refine ⟨more, r, w, yields, ?_⟩
  cases r with
  | ok a => exact goods _ _ _ holds
  | error e => exact bads _ _ _ holds

theorem bind {next : Next ω (TaskReply ρ τ) α} {f : α → Script ω (TaskReply ρ τ) β}
    {middle : List (Moment ρ) → α → ω → Prop} {goal : List (Moment ρ) → β → ω → Prop}
    (first : Ends body past next middle bad)
    (second : ∀ past a w, middle past a w → Ends body past (f a w) goal bad) :
    Ends body past (next.bind f) goal bad := by
  obtain ⟨more, r, w, yields, holds⟩ := first
  cases r with
  | error e => exact ⟨more, .error e, w, yields.bind_error, holds⟩
  | ok a =>
    obtain ⟨later, r', w', yields', holds'⟩ := second _ a w holds
    refine ⟨more ++ later, r', w', yields.bind yields', ?_⟩
    rwa [visible_append, ← List.append_assoc]

/-- A call shows that it is begun and that it is ended. -/
theorem call {c : κ} {good : List (Moment ρ) → ρ c → ω → Prop}
    (ends : Ends body (past ++ [.began c]) (body (.inl c) w)
      (fun past a w => good (past ++ [.ended c (.ok a)]) a w)
      (fun past e w => bad (past ++ [.ended c (.error e)]) e w)) :
    Ends body past (Script.perform (Sum.inl c) w) good bad := by
  obtain ⟨more, r, w', yields, holds⟩ := ends
  refine ⟨_, r, w', yields.perform, ?_⟩
  have shown : past ++ visible (.began (.inl c) :: more ++ [.ended (.inl c) r]) =
      past ++ [.began c] ++ visible more ++ [.ended c r] := by
    simp [visible, Moment.visible?]
  rw [shown]
  cases r with
  | ok a => exact holds
  | error e => exact holds

/-- A loop of the engine shows nothing of itself. -/
theorem loop {l : ι} {good : List (Moment ρ) → τ l → ω → Prop}
    (ends : Ends body past (body (.inr l) w) good bad) :
    Ends body past (Script.perform (Sum.inr l) w) good bad := by
  obtain ⟨more, r, w', yields, holds⟩ := ends
  refine ⟨_, r, w', yields.perform, ?_⟩
  have shown : visible (.began (.inr l) :: more ++ [.ended (.inr l) r]) = visible more := by
    rw [visible_append]
    exact List.append_nil (visible more)
  rw [shown]
  exact holds

theorem forM {f : β → Script ω (TaskReply ρ τ) Unit} (inv : List β → List (Moment ρ) → ω → Prop)
    (step : ∀ b rest past w, inv (b :: rest) past w →
      Ends body past (f b w) (fun past _ w => inv rest past w) bad) :
    (items : List β) → {past : List (Moment ρ)} → {w : ω} → inv items past w →
      Ends body past (items.forM f w) (fun past _ w => inv [] past w) bad
  | [], _, _, holds => ok holds
  | b :: items, _, _, holds =>
    bind (step b items _ _ holds) fun _ _ _ holds => forM inv step items holds

/-- A call that ends is run to its end by the machine, given enough steps. -/
theorem run {c : κ} {good : List (Moment ρ) → ρ c → ω → Prop}
    (ends : Ends body [] (Script.perform (Sum.inl c) w) good bad) :
    ∃ enough past r w',
      (∀ steps, enough ≤ steps → Machine.run body steps (.inl c) w = some (r, w') ∧
        visible (Machine.history body steps (.inl c) w) = past) ∧
      match r with
      | .ok a => good past a w'
      | .error e => bad past e w' := by
  obtain ⟨_, r, w', yields, holds⟩ := ends
  cases yields with
  | called inner outer =>
    cases outer
    obtain ⟨enough, done, -⟩ := inner.run
    have shown := (inner.run_eq done).2
    refine ⟨enough, visible (Machine.history body enough (.inl c) w), r, w', fun steps more => ?_, ?_⟩
    · have later := Machine.run_mono more done
      rw [shown, (inner.run_eq later).2]
      exact ⟨later, rfl⟩
    · rw [shown]
      cases r with
      | ok a => exact holds
      | error e => exact holds

/-- A run that fails, fails in the way that was shown. -/
theorem of_run_error {c : κ} {good : List (Moment ρ) → ρ c → ω → Prop} {steps : Nat} {e : Fault}
    {w' : ω} (ends : Ends body [] (Script.perform (Sum.inl c) w) good bad)
    (failed : Machine.run body steps (.inl c) w = some (.error e, w')) :
    bad (visible (Machine.history body steps (.inl c) w)) e w' := by
  obtain ⟨_, r, _, yields, holds⟩ := ends
  cases yields with
  | called inner outer =>
    cases outer
    obtain ⟨same, shown⟩ := inner.run_eq failed
    cases same
    rw [shown]
    exact holds

end Ends

end Ends

namespace FieldType

theorem place?_succ_of_one {ty : FieldType} {v : ty.Val} {k : Nat} {lane : Lane}
    (here : ty.lanes[k]? = some lane) (one : lane.arity = .one) (i : Nat) :
    ty.place? v k (i + 1) = none := by
  cases ty with
  | child c | optional c => simp [place?]
  | details =>
    rcases k with _ | k
    · simp [← Option.some.inj here] at one
    · cases v <;> simp [place?]
  | sequence c | labelled key | childPath =>
    rcases k with _ | k
    · simp [← Option.some.inj here] at one
    · simp [lanes] at here
  | _ => rfl

end FieldType

theorem Record.place?_succ_of_one : (fields : List Field) → (r : Record fields) → (k : Nat) →
    {lane : Lane} → (lanesOf fields)[k]? = some lane → lane.arity = .one → (i : Nat) →
      place? fields r k (i + 1) = none
  | [], _, _, _, _, _, _ => rfl
  | f :: fields, (v, r), k, lane, here, one, i => by
    rw [lanesOf, List.flatMap_cons, List.getElem?_append] at here
    rw [place?]
    split
    · rw [if_pos ‹_›] at here
      exact FieldType.place?_succ_of_one here one i
    · rw [if_neg ‹_›] at here
      exact place?_succ_of_one fields r _ here one i

namespace Node

variable {n : Node} {k i : Nat} {lane : Lane}

/-- All places of lane `k`. -/
def places (n : Node) (k : Nat) : List (Option NodeId) :=
  (n.record.children n.tag.fields)[k]?.getD []

/-- The children in lane `k` before position `i`. -/
def passed (n : Node) (k i : Nat) : List Handle :=
  n.tag.lanes[k]?.elim [] fun lane => lane.held ((n.places k).take i)

/-- The children from position `i` of lane `k` on. -/
def onward (n : Node) (k i : Nat) : List Handle :=
  (n.tag.lanes[k]?.elim [] fun lane => lane.held ((n.places k).drop i)) ++
    (n.rows.drop (k + 1)).flatMap Row.held

theorem getElem?_places (n : Node) (k i : Nat) : (n.places k)[i]? = n.place? k i := by
  rw [place?, Record.place?_eq, places]
  cases (n.record.children n.tag.fields)[k]? <;> rfl

theorem length_rows (n : Node) : n.rows.length = n.tag.lanes.length := by
  rw [rows_eq, List.length_zipWith, Record.length_children]
  exact Nat.min_self _

theorem place?_of_no_lane (none : n.tag.lanes[k]? = none) : n.place? k i = .none := by
  have beyond : (n.record.children n.tag.fields)[k]? = .none := by
    rw [List.getElem?_eq_none_iff, Record.length_children]
    exact List.getElem?_eq_none_iff.mp none
  rw [place?, Record.place?_eq, beyond]
  rfl

theorem getElem?_rows (here : n.tag.lanes[k]? = some lane) :
    n.rows[k]? = some ⟨lane, lane.held (n.places k)⟩ := by
  have inRange : k < (n.record.children n.tag.fields).length := by
    rw [Record.length_children]
    exact (List.getElem?_eq_some_iff.mp here).choose
  rw [rows_eq, List.getElem?_zipWith, here, places, List.getElem?_eq_getElem inRange]
  rfl

theorem place?_of_drop_nil (left : (n.places k).drop i = []) : n.place? k i = none := by
  rw [← getElem?_places, List.getElem?_eq_none_iff]
  exact List.drop_eq_nil_iff.mp left

theorem place?_of_drop_cons {place : Option NodeId} {coming : List (Option NodeId)}
    (left : (n.places k).drop i = place :: coming) : n.place? k i = some place := by
  rw [← getElem?_places, ← List.head?_drop, left]
  rfl

theorem drop_succ_of_drop_cons {place : Option NodeId} {coming : List (Option NodeId)}
    (left : (n.places k).drop i = place :: coming) : (n.places k).drop (i + 1) = coming := by
  rw [← List.tail_drop, left]
  rfl

theorem place?_succ_of_one (here : n.tag.lanes[k]? = some lane) (one : lane.arity = .one) (i : Nat) :
    n.place? k (i + 1) = none :=
  Record.place?_succ_of_one n.tag.fields n.record k here one i

theorem of_zipIdx_nil {lanes : List Lane} (left : (lanes.drop k).zipIdx k = []) :
    lanes.length ≤ k :=
  List.drop_eq_nil_iff.mp (List.zipIdx_eq_nil_iff.mp left)

theorem of_zipIdx_cons {lanes : List Lane} {first : Lane × Nat} {rest : List (Lane × Nat)}
    (left : (lanes.drop k).zipIdx k = first :: rest) :
    ∃ lane, first = (lane, k) ∧ lanes[k]? = some lane ∧ (lanes.drop (k + 1)).zipIdx (k + 1) = rest := by
  cases coming : lanes.drop k with
  | nil =>
    rw [coming] at left
    cases left
  | cons lane others =>
    rw [coming, List.zipIdx_cons] at left
    obtain ⟨rfl, rfl⟩ := List.cons.inj left
    refine ⟨lane, rfl, ?_, ?_⟩
    · rw [← List.head?_drop, coming]
      rfl
    · rw [← List.tail_drop, coming]
      rfl

theorem onward_start (n : Node) (k : Nat) : n.onward k 0 = (n.rows.drop k).flatMap Row.held := by
  rw [onward]
  cases here : n.tag.lanes[k]? with
  | none =>
    have past : n.rows.length ≤ k := by
      rw [length_rows]
      exact List.getElem?_eq_none_iff.mp here
    have next : n.rows.length ≤ k + 1 := by omega
    rw [List.drop_eq_nil_of_le past, List.drop_eq_nil_of_le next]
    rfl
  | some lane =>
    have split : n.rows.drop k = _ := List.drop_eq_getElem?_toList_append
    rw [split, getElem?_rows here]
    rfl

theorem onward_some {id : NodeId} (here : n.tag.lanes[k]? = some lane)
    (there : n.place? k i = some (some id)) :
    n.onward k i = ⟨lane.category, id⟩ :: n.onward k (i + 1) := by
  rw [onward, onward, here, List.drop_eq_getElem?_toList_append, getElem?_places, there]
  rfl

theorem mem_onward {id : NodeId} (here : n.tag.lanes[k]? = some lane)
    (there : n.place? k i = some (some id)) : ⟨lane.category, id⟩ ∈ n.onward k i := by
  rw [onward_some here there]
  exact List.mem_cons_self

theorem onward_none (there : n.place? k i = some none) : n.onward k i = n.onward k (i + 1) := by
  rw [onward, onward, List.drop_eq_getElem?_toList_append, getElem?_places, there]
  rfl

theorem onward_end (there : n.place? k i = none) : n.onward k i = n.onward (k + 1) 0 := by
  rw [← getElem?_places, List.getElem?_eq_none_iff] at there
  rw [onward_start, onward, List.drop_eq_nil_of_le there]
  cases n.tag.lanes[k]? <;> rfl

def settled (n : Node) (k : Nat) : List Handle :=
  (n.rows.take k).flatMap Row.held

/-- The children before position `i` of lane `k`. -/
def behind (n : Node) (k i : Nat) : List Handle :=
  n.settled k ++ n.passed k i

theorem passed_some {id : NodeId} (here : n.tag.lanes[k]? = some lane)
    (there : n.place? k i = some (some id)) :
    n.passed k (i + 1) = n.passed k i ++ [⟨lane.category, id⟩] := by
  rw [passed, passed, here, List.take_add_one, getElem?_places, there]
  exact List.filterMap_append

theorem passed_none (there : n.place? k i = some none) : n.passed k (i + 1) = n.passed k i := by
  rw [passed, passed, List.take_add_one, getElem?_places, there]
  cases n.tag.lanes[k]? with
  | none => rfl
  | some lane => exact List.filterMap_append.trans (List.append_nil _)

theorem passed_end (here : n.tag.lanes[k]? = some lane) (there : n.place? k i = none) :
    n.rows[k]? = some ⟨lane, n.passed k i⟩ := by
  rw [← getElem?_places, List.getElem?_eq_none_iff] at there
  rw [getElem?_rows here, passed, here, List.take_of_length_le there]
  rfl

theorem passed_zero (n : Node) (k : Nat) : n.passed k 0 = [] := by
  rw [passed]
  cases n.tag.lanes[k]? <;> rfl

theorem settled_succ (here : n.tag.lanes[k]? = some lane) (there : n.place? k i = none) :
    n.settled (k + 1) = n.behind k i := by
  rw [settled, behind, settled, List.take_add_one, passed_end here there, List.flatMap_append]
  exact congrArg _ (List.append_nil _)

theorem settled_all (n : Node) : n.settled n.tag.lanes.length = n.children := by
  rw [settled, ← length_rows, List.take_length, children]

/-- A position splits the children into those before it and those from it on. -/
theorem children_eq (n : Node) (k i : Nat) : n.children = n.behind k i ++ n.onward k i := by
  have lane : n.passed k i ++ n.onward k i = n.onward k 0 := by
    rw [passed, onward, onward, ← List.append_assoc]
    cases n.tag.lanes[k]? with
    | none => rfl
    | some lane =>
      have whole : lane.held ((n.places k).take i) ++ lane.held ((n.places k).drop i) =
          lane.held (n.places k) := by
        rw [Lane.held, Lane.held, ← List.filterMap_append, List.take_append_drop, Lane.held]
      exact congrArg (· ++ _) whole
  rw [behind, List.append_assoc, lane, onward_start, settled, ← List.flatMap_append,
    List.take_append_drop, children]

end Node

section Places

variable {σ : Type} {a : Arena} {w : World σ} {owner : NodeId} {n : Node}

theorem Arena.get_of_node (stored : a.node owner = .ok n) : a.get n.tag owner = .ok n.record := by
  rw [Arena.get, stored]
  simp [bind, Except.bind, Node.as?]

theorem World.place?_of_node (stored : w.arena.node owner = .ok n) (k i : Nat) :
    World.place? n.tag owner k i w = .ok (n.place? k i) := by
  rw [World.place?, Arena.get_of_node stored]
  rfl

theorem World.places_of_node (stored : w.arena.node owner = .ok n) (k : Nat) :
    World.places n.tag owner k w = .ok (n.places k) := by
  rw [World.places, Arena.get_of_node stored]
  rfl

theorem World.fill_of_node (stored : w.arena.node owner = .ok n) {k i : Nat} {old : Option NodeId}
    (there : n.place? k i = some old) (new : NodeId) :
    World.fill n.tag owner k i new w =
      (.ok true, { w with arena := w.arena.put n.tag owner (n.fill k i new).record }) := by
  rw [Node.place?] at there
  rw [World.fill, Arena.get_of_node stored]
  simp only [there]
  rfl

end Places

namespace Visitor

variable {σ : Type} {v : Visitor σ} {owner : NodeId} {n : Node}
  {inv : List Handle → List (Moment Reply) → World σ → Prop}
  {bad : List (Moment Reply) → Fault → World σ → Prop}

/-- What has to be known of a walk: `inv` speaks of the moment before some last children of `n` are
entered, one after the other. -/
structure Walkable (v : Visitor σ) (owner : NodeId) (n : Node)
    (inv : List Handle → List (Moment Reply) → World σ → Prop)
    (bad : List (Moment Reply) → Fault → World σ → Prop) : Prop where
  stored : ∀ {rest past w}, inv rest past w → w.arena.node owner = .ok n
  enter : ∀ {c rest past w}, inv (c :: rest) past w →
    Ends v.body past (Script.perform (Sum.inl (Call.enter c)) w) (fun past _ w => inv rest past w) bad

namespace Walkable

variable (rule : v.Walkable owner n inv bad) {k i : Nat} {lane : Lane} {past : List (Moment Reply)}
  {w : World σ}

include rule

theorem visitPlace_ends {place : Option NodeId} (here : n.tag.lanes[k]? = some lane)
    (there : n.place? k i = some place) (holds : inv (n.onward k i) past w) :
    Ends v.body past (visitPlace lane.category place w)
      (fun past _ w => inv (n.onward k (i + 1)) past w) bad := by
  cases place with
  | none =>
    rw [n.onward_none there] at holds
    exact .ok holds
  | some id =>
    rw [n.onward_some here there] at holds
    exact rule.enter holds

theorem loop_ends (here : n.tag.lanes[k]? = some lane) (coming : List (Option NodeId)) :
    ∀ {i past w}, (n.places k).drop i = coming → inv (n.onward k i) past w →
      Ends v.body past (v.body (.inr ⟨n.tag, owner, lane.category, k, i⟩) w)
        (fun past _ w => inv (n.onward (k + 1) 0) past w) bad := by
  induction coming with
  | nil =>
    intro i past w left holds
    have there := n.place?_of_drop_nil left
    have reads := World.place?_of_node (rule.stored holds) k i
    rw [there] at reads
    rw [n.onward_end there] at holds
    rw [body, Sequence.visitFrom]
    change Ends _ _ ((Script.read (World.place? n.tag owner k i) >>= _) w) _ _
    rw [Script.read_bind reads]
    exact .ok holds
  | cons place coming ih =>
    intro i past w left holds
    have there := n.place?_of_drop_cons left
    have reads := World.place?_of_node (rule.stored holds) k i
    rw [there] at reads
    rw [body, Sequence.visitFrom]
    change Ends _ _ ((Script.read (World.place? n.tag owner k i) >>= _) w) _ _
    rw [Script.read_bind reads]
    refine .bind (rule.visitPlace_ends here there holds) fun past _ w holds => ?_
    exact .loop (ih (n.drop_succ_of_drop_cons left) holds)

theorem copy_ends (here : n.tag.lanes[k]? = some lane) (holds : inv (n.onward k 0) past w) :
    Ends v.body past
      (Sequence.visitCopy (Access.lane n.tag owner k) (visitPlace lane.category) w)
      (fun past _ w => inv (n.onward (k + 1) 0) past w) bad := by
  rw [Sequence.visitCopy]
  change Ends _ _ ((Script.read (World.places n.tag owner k) >>= _) w) _ _
  rw [Script.read_bind (World.places_of_node (rule.stored holds) k)]
  refine (Ends.forM
    (fun coming past w => ∃ i, (n.places k).drop i = coming ∧ inv (n.onward k i) past w)
    (fun place rest past w => ?_) (n.places k) ⟨0, rfl, holds⟩).mono
    (fun past _ w => ?_) (fun _ _ _ holds => holds)
  · rintro ⟨i, left, holds⟩
    refine (rule.visitPlace_ends here (n.place?_of_drop_cons left) holds).mono
      (fun past _ w holds => ?_) (fun _ _ _ holds => holds)
    exact ⟨i + 1, n.drop_succ_of_drop_cons left, holds⟩
  · rintro ⟨i, left, holds⟩
    rwa [← n.onward_end (n.place?_of_drop_nil left)]

theorem walkLane_ends (here : n.tag.lanes[k]? = some lane) (holds : inv (n.onward k 0) past w) :
    Ends v.body past (v.walkLane n.tag owner lane k w)
      (fun past _ w => inv (n.onward (k + 1) 0) past w) bad := by
  cases arity : lane.arity with
  | one =>
    have reads := World.place?_of_node (rule.stored holds) k 0
    rw [walkLane, arity]
    dsimp only
    rw [Script.read_bind reads]
    cases there : n.place? k 0 with
    | none =>
      rw [n.onward_end there] at holds
      exact .ok holds
    | some place =>
      refine (rule.visitPlace_ends here there holds).mono (fun past _ w holds => ?_)
        (fun _ _ _ holds => holds)
      rwa [n.onward_end (n.place?_succ_of_one here arity 0)] at holds
  | many =>
    cases policy : v.policy w.state with
    | live =>
      rw [walkLane_live arity _ _ _ policy]
      exact .loop (rule.loop_ends here (n.places k) rfl holds)
    | snapshot =>
      rw [walkLane_snapshot arity _ _ _ policy]
      exact rule.copy_ends here holds

/-- A walk enters the children in the order of the table. -/
theorem walk_ends (holds : inv n.children past w) :
    Ends v.body past (v.body (.inl (.walk n.tag owner)) w) (fun past _ w => inv [] past w) bad := by
  have start : inv (n.onward 0 0) past w := by rwa [n.onward_start]
  refine (Ends.forM
    (fun lanes past w => ∃ k, (n.tag.lanes.drop k).zipIdx k = lanes ∧ inv (n.onward k 0) past w)
    (fun lane rest past w => ?_) n.tag.lanes.zipIdx ⟨0, rfl, start⟩).mono
    (fun past _ w => ?_) (fun _ _ _ holds => holds)
  · rintro ⟨k, left, holds⟩
    obtain ⟨lane, rfl, here, rest⟩ := Node.of_zipIdx_cons left
    refine (rule.walkLane_ends here holds).mono (fun past _ w holds => ?_) (fun _ _ _ holds => holds)
    exact ⟨k + 1, rest, holds⟩
  · rintro ⟨k, left, holds⟩
    have beyond := Node.of_zipIdx_nil left
    rw [n.onward_start, List.drop_eq_nil_of_le (by rwa [n.length_rows])] at holds
    exact holds

end Walkable

end Visitor

/-- The world with `x` more places counted as overwritten. -/
def World.bump {σ : Type} (x : Nat) (w : World (Tally σ)) : World (Tally σ) :=
  { w with state := { w.state with replaced := w.state.replaced + UInt64.ofNat x } }

theorem World.bump_zero {σ : Type} (w : World (Tally σ)) : w.bump 0 = w := by
  simp [bump]

namespace Transformer

variable {σ : Type} {r : Transformer σ} {owner : NodeId} {n : Node}
  {inv : (k i x : Nat) → List (Moment Reply) → World (Tally σ) → Prop}
  {bad : List (Moment Reply) → Fault → World (Tally σ) → Prop}

/-- What has to be known of a walk: `inv k i x` speaks of the moment before position `i` of lane `k`
is read, when `x` places of that lane were overwritten and have not been counted. -/
structure Walkable (r : Transformer σ) (owner : NodeId) (n : Node)
    (inv : (k i x : Nat) → List (Moment Reply) → World (Tally σ) → Prop)
    (bad : List (Moment Reply) → Fault → World (Tally σ) → Prop) : Prop where
  reads : ∀ {k i x past w}, inv k i x past w →
    World.place? n.tag owner k i w = .ok (n.place? k i)
  enter : ∀ {k i x past w lane id}, n.tag.lanes[k]? = some lane → n.place? k i = some (some id) →
    inv k i x past w →
      Ends r.body past (Script.perform (Sum.inl (Call.enter ⟨lane.category, id⟩)) w)
        (fun past new w =>
          if new = id then inv k (i + 1) x past w
          else ∃ w', World.fill n.tag owner k i new w = (.ok true, w') ∧
            inv k (i + 1) (x + 1) past w') bad
  skip : ∀ {k i x past w}, n.place? k i = some none → inv k i x past w → inv k (i + 1) x past w
  next : ∀ {k i x past w lane}, n.tag.lanes[k]? = some lane → n.place? k i = none →
    inv k i x past w → inv (k + 1) 0 0 past (w.bump x)

namespace Walkable

variable (rule : r.Walkable owner n inv bad) {k i x : Nat} {lane : Lane}
  {past : List (Moment Reply)} {w : World (Tally σ)}

include rule

theorem replacePlace_ends {place : Option NodeId} (here : n.tag.lanes[k]? = some lane)
    (there : n.place? k i = some place) (holds : inv k i x past w) :
    Ends r.body past (replacePlace lane.category place w)
      (fun past new w =>
        if new = place then inv k (i + 1) x past w
        else ∃ w', (Access.lane n.tag owner k).write i new w = (.ok true, w') ∧
          inv k (i + 1) (x + 1) past w') bad := by
  cases place with
  | none =>
    refine .ok ?_
    rw [if_pos rfl]
    exact rule.skip there holds
  | some id =>
    refine .bind (rule.enter here there holds) fun past new w holds => .ok ?_
    by_cases same : new = id
    · rw [if_pos same] at holds
      rwa [if_pos (congrArg some same)]
    · rw [if_neg same] at holds
      rwa [if_neg fun both => same (Option.some.inj both)]

/-- The loop from any position. It replies how many places of the lane were overwritten. -/
theorem loop_ends (here : n.tag.lanes[k]? = some lane) (coming : List (Option NodeId)) :
    ∀ {i x past w}, (n.places k).drop i = coming → inv k i x past w →
      Ends r.body past (r.body (.inr ⟨n.tag, owner, lane.category, k, i, x⟩) w)
        (fun past x w => inv (k + 1) 0 0 past (w.bump x)) bad := by
  induction coming with
  | nil =>
    intro i x past w left holds
    have there := n.place?_of_drop_nil left
    have reads := rule.reads holds
    rw [there] at reads
    rw [body, Sequence.replaceFrom]
    change Ends _ _ ((Script.read (World.place? n.tag owner k i) >>= _) w) _ _
    rw [Script.read_bind reads]
    exact .ok (rule.next here there holds)
  | cons place coming ih =>
    intro i x past w left holds
    have there := n.place?_of_drop_cons left
    have reads := rule.reads holds
    rw [there] at reads
    rw [body, Sequence.replaceFrom]
    change Ends _ _ ((Script.read (World.place? n.tag owner k i) >>= _) w) _ _
    rw [Script.read_bind reads]
    refine .bind (rule.replacePlace_ends here there holds) fun past new w holds => ?_
    have rest := n.drop_succ_of_drop_cons left
    by_cases same : new = place
    · rw [if_pos same] at holds ⊢
      exact .loop (ih rest holds)
    · rw [if_neg same] at holds ⊢
      obtain ⟨w', written, holds⟩ := holds
      rw [Script.step_bind written, if_pos rfl]
      exact .loop (ih rest holds)

theorem walkLane_ends (here : n.tag.lanes[k]? = some lane) (holds : inv k 0 0 past w) :
    Ends r.body past (walkLane n.tag owner lane k w)
      (fun past _ w => inv (k + 1) 0 0 past w) bad := by
  rw [walkLane]
  cases arity : lane.arity with
  | one =>
    have reads := rule.reads holds
    dsimp only
    rw [Script.read_bind reads]
    cases there : n.place? k 0 with
    | none =>
      have done := rule.next here there holds
      rw [World.bump_zero] at done
      exact .ok done
    | some place =>
      refine .bind (rule.replacePlace_ends here there holds) fun past new w holds => ?_
      have last := n.place?_succ_of_one here arity 0
      by_cases same : new = place
      · rw [if_pos same] at holds ⊢
        have done := rule.next here last holds
        rw [World.bump_zero] at done
        exact .ok done
      · rw [if_neg same] at holds ⊢
        obtain ⟨w', written, holds⟩ := holds
        rw [Script.step_bind written, if_pos rfl]
        exact .ok (rule.next here last holds)
  | many =>
    refine .bind (.loop (rule.loop_ends here (n.places k) rfl holds)) fun past x w holds => ?_
    exact .ok holds

/-- A walk transforms the children in the order of the table. -/
theorem walk_ends (holds : inv 0 0 0 past w) :
    Ends r.body past (r.body (.inl (.walk n.tag owner)) w)
      (fun past _ w => inv n.tag.lanes.length 0 0 past w) bad := by
  refine (Ends.forM
    (fun lanes past w => ∃ k, k ≤ n.tag.lanes.length ∧ (n.tag.lanes.drop k).zipIdx k = lanes ∧
      inv k 0 0 past w)
    (fun lane rest past w => ?_) n.tag.lanes.zipIdx ⟨0, Nat.zero_le _, rfl, holds⟩).mono
    (fun past _ w => ?_) (fun _ _ _ holds => holds)
  · rintro ⟨k, -, left, holds⟩
    obtain ⟨lane, rfl, here, rest⟩ := Node.of_zipIdx_cons left
    refine (rule.walkLane_ends here holds).mono (fun past _ w holds => ?_) (fun _ _ _ holds => holds)
    exact ⟨k + 1, (List.getElem?_eq_some_iff.mp here).choose, rest, holds⟩
  · rintro ⟨k, within, left, holds⟩
    obtain rfl := Nat.le_antisymm within (Node.of_zipIdx_nil left)
    exact holds

end Walkable

end Transformer

end ProgramTree
