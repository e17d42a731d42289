import ProgramTree.Proofs.Contract

/-!
Two engines that make the same calls, though one of them may need loops of its own between two calls
where the other has none. A bond says in which worlds the two make a call and in which they get the
reply. When the code that carries out each call goes along with its counterpart (`Next.Alongside`), then
whatever comes to an end on one side does so on the other, with the same result and the same calls on
the way (`Bond.Joins.run`). Nothing ties the steps of the two runs to each other.

For two reading passes it is enough to look at one child at a time, under any two policies
(`Visitor.Abreast`).
-/

namespace ProgramTree

section Alongside

variable {ω ω' κ ι ι' α β : Type} {ρ : κ → Type} {τ : ι → Type} {τ' : ι' → Type}

/-- What two runs have to do with each other at their calls. -/
structure Bond (ω ω' : Type) {κ : Type} (ρ : κ → Type) where
  /-- Both make the call. -/
  pre : κ → ω → ω' → Prop
  /-- Both get the reply to a call that was made before. -/
  post : (c : κ) → ω → ω' → Except Fault (ρ c) → ω → ω' → Prop

def Bond.flip (b : Bond ω ω' ρ) : Bond ω' ω ρ where
  pre c w' w := b.pre c w w'
  post c w' w r u' u := b.post c w w' r u u'

/-- Both have succeeded, and are `good`, or failed for the same reason, and are `bad`. -/
def Both (good : α → ω → ω' → Prop) (bad : Fault → ω → ω' → Prop) :
    Except Fault α → ω → ω' → Prop
  | .ok a => good a
  | .error e => bad e

/-- The two make the same calls and end in the same way. A loop is taken as the code that it runs. -/
inductive Next.Alongside (b : Bond ω ω' ρ)
    (body : (task : κ ⊕ ι) → Script ω (TaskReply ρ τ) (TaskReply ρ τ task))
    (body' : (task : κ ⊕ ι') → Script ω' (TaskReply ρ τ') (TaskReply ρ τ' task))
    (goal : Except Fault α → ω → ω' → Prop) :
    Next ω (TaskReply ρ τ) α → Next ω' (TaskReply ρ τ') α → Prop where
  | finish {r : Except Fault α} {w : ω} {w' : ω'} :
      goal r w w' → Alongside b body body' goal (.finish r w) (.finish r w')
  | call {c : κ} {w : ω} {w' : ω'} {resume : Except Fault (ρ c) → ω → Next ω (TaskReply ρ τ) α}
      {resume' : Except Fault (ρ c) → ω' → Next ω' (TaskReply ρ τ') α} :
      b.pre c w w' →
      (∀ r u u', b.post c w w' r u u' → Alongside b body body' goal (resume r u) (resume' r u')) →
      Alongside b body body' goal (.call (.inl c) w resume) (.call (.inl c) w' resume')
  | left {l : ι} {w : ω} {resume : Except Fault (τ l) → ω → Next ω (TaskReply ρ τ) α}
      {next' : Next ω' (TaskReply ρ τ') α} :
      Alongside b body body' goal ((body (.inr l) w).andThen resume) next' →
      Alongside b body body' goal (.call (.inr l) w resume) next'
  | right {l : ι'} {w' : ω'} {resume' : Except Fault (τ' l) → ω' → Next ω' (TaskReply ρ τ') α}
      {next : Next ω (TaskReply ρ τ) α} :
      Alongside b body body' goal next ((body' (.inr l) w').andThen resume') →
      Alongside b body body' goal next (.call (.inr l) w' resume')

/-- The code that carries out a call goes along with its counterpart. -/
def Bond.Joins (b : Bond ω ω' ρ)
    (body : (task : κ ⊕ ι) → Script ω (TaskReply ρ τ) (TaskReply ρ τ task))
    (body' : (task : κ ⊕ ι') → Script ω' (TaskReply ρ τ') (TaskReply ρ τ' task)) : Prop :=
  ∀ c w w', b.pre c w w' →
    Next.Alongside b body body' (b.post c w w') (body (.inl c) w) (body' (.inl c) w')

theorem Next.andThen_bind {γ : Type} (next : Next ω ρ α) (f : Except Fault α → ω → Next ω ρ β)
    (g : β → Script ω ρ γ) : (next.andThen f).bind g = next.andThen fun r w => (f r w).bind g := by
  induction next with
  | finish r w => rfl
  | call c w resume ih => exact congrArg (Next.call c w) (funext fun r => funext fun w' => ih r w')

section Runs

variable {body : (c : κ) → Script ω ρ (ρ c)} {w w₁ w₂ : ω} {f : Except Fault α → ω → Next ω ρ β}

theorem Machine.Yields.andThen {next : Next ω ρ α} {past later : List (Moment ρ)}
    {reply : Except Fault α} {r : Except Fault β} (first : Machine.Yields body next past reply w₁)
    (second : Machine.Yields body (f reply w₁) later r w₂) :
    Machine.Yields body (next.andThen f) (past ++ later) r w₂ := by
  induction first with
  | finished => exact second
  | called inner _ _ ih => simpa [Next.andThen] using Machine.Yields.called inner (ih second)

theorem Machine.Yields.of_andThen {past : List (Moment ρ)} {r : Except Fault β} (next : Next ω ρ α)
    (whole : Machine.Yields body (next.andThen f) past r w₂) :
    ∃ first later reply w₁, past = first ++ later ∧ Machine.Yields body next first reply w₁ ∧
      Machine.Yields body (f reply w₁) later r w₂ := by
  induction next generalizing past with
  | finish reply w => exact ⟨[], past, reply, w, rfl, .finished reply w, whole⟩
  | call c w resume ih =>
    cases whole with
    | called inner outer =>
      obtain ⟨first, later, reply, w₁, rfl, begins, ends⟩ := ih _ _ outer
      exact ⟨_, later, reply, w₁, by simp, .called inner begins, ends⟩

end Runs

variable {b : Bond ω ω' ρ} {body : (task : κ ⊕ ι) → Script ω (TaskReply ρ τ) (TaskReply ρ τ task)}
  {body' : (task : κ ⊕ ι') → Script ω' (TaskReply ρ τ') (TaskReply ρ τ' task)}

theorem visible_called (c : κ) (reply : Except Fault (ρ c))
    (inner outer : List (Moment (TaskReply ρ τ))) :
    visible (.began (.inl c) :: inner ++ .ended (.inl c) reply :: outer) =
      .began c :: visible inner ++ .ended c reply :: visible outer := by
  simp [visible, Moment.visible?]

theorem visible_looped (l : ι) (reply : Except Fault (τ l))
    (inner outer : List (Moment (TaskReply ρ τ))) :
    visible (.began (.inr l) :: inner ++ .ended (.inr l) reply :: outer) = visible (inner ++ outer) := by
  rw [Ends.visible_append inner outer]
  exact Ends.visible_append (.began (.inr l) :: inner) _

theorem Bond.Joins.yields (joins : b.Joins body body') (n : Nat) :
    ∀ {α : Type} {goal : Except Fault α → ω → ω' → Prop} {next : Next ω (TaskReply ρ τ) α}
      {next' : Next ω' (TaskReply ρ τ') α} {past : List (Moment (TaskReply ρ τ))}
      {r : Except Fault α} {u : ω}, past.length = n → Machine.Yields body next past r u →
      Next.Alongside b body body' goal next next' →
      ∃ past' u', Machine.Yields body' next' past' r u' ∧ goal r u u' ∧ visible past' = visible past := by
  induction n using Nat.strong_induction_on with
  | _ n ih =>
    intro α goal next next' past r u long yields along
    -- A loop on the left makes the past shorter, and one on the right the derivation.
    induction along with
    | finish holds =>
      cases yields
      exact ⟨[], _, .finished _ _, holds, rfl⟩
    | @call c w w' resume resume' pre onward _ =>
      cases yields with
      | @called _ _ _ w₁ _ _ inner outer reply _ inside outside =>
        simp only [List.length_append, List.length_cons] at long
        obtain ⟨inner', u₁, inside', post, sameInner⟩ :=
          ih inner.length (by omega) rfl inside (joins c w w' pre)
        obtain ⟨outer', u₂, outside', holds, sameOuter⟩ :=
          ih outer.length (by omega) rfl outside (onward reply w₁ u₁ post)
        refine ⟨_, u₂, .called inside' outside', holds, ?_⟩
        rw [visible_called, visible_called, sameInner, sameOuter]
    | left along _ =>
      cases yields with
      | @called _ l _ w₁ _ _ inner outer reply _ inside outside =>
        simp only [List.length_append, List.length_cons] at long
        obtain ⟨past', u', yields', holds, same⟩ :=
          ih (inner ++ outer).length (by simp; omega) rfl (inside.andThen outside) along
        refine ⟨past', u', yields', holds, ?_⟩
        rw [same, visible_looped]
    | right _ ihAlong =>
      obtain ⟨past', u', yields', holds, same⟩ := ihAlong yields
      obtain ⟨inner, outer, reply, w₁, rfl, inside, outside⟩ := yields'.of_andThen
      refine ⟨_, u', .called inside outside, holds, ?_⟩
      rw [visible_looped, same]

theorem Bond.Joins.run (joins : b.Joins body body') {steps : Nat} {c : κ} {w u : ω} {w' : ω'}
    {r : Except Fault (ρ c)} (pre : b.pre c w w')
    (done : Machine.run body steps (.inl c) w = some (r, u)) :
    ∃ steps' u', Machine.run body' steps' (.inl c) w' = some (r, u') ∧ b.post c w w' r u u' ∧
      visible (Machine.history body' steps' (.inl c) w') =
        visible (Machine.history body steps (.inl c) w) := by
  obtain ⟨past, yields⟩ := Machine.yields_of_run done
  obtain ⟨past', u', yields', post, same⟩ := joins.yields past.length rfl yields (joins c w w' pre)
  obtain ⟨steps', done', shown'⟩ := yields'.run
  refine ⟨steps', u', done', post, ?_⟩
  rw [shown', (yields.run_eq done).2, visible_called, visible_called, same]
  rfl

namespace Next.Alongside

variable {goal goal' : Except Fault α → ω → ω' → Prop} {next : Next ω (TaskReply ρ τ) α}
  {next' : Next ω' (TaskReply ρ τ') α} {bad : Fault → ω → ω' → Prop}

theorem mono (along : Next.Alongside b body body' goal next next')
    (weaker : ∀ r w w', goal r w w' → goal' r w w') : Next.Alongside b body body' goal' next next' := by
  induction along with
  | finish holds => exact .finish (weaker _ _ _ holds)
  | call pre _ ih => exact .call pre ih
  | left _ ih => exact .left ih
  | right _ ih => exact .right ih

theorem flip (along : Next.Alongside b body body' goal next next') :
    Next.Alongside b.flip body' body (fun r w' w => goal r w w') next' next := by
  induction along with
  | finish holds => exact .finish holds
  | call pre _ ih => exact .call pre fun r u' u post => ih r u u' post
  | left _ ih => exact .right ih
  | right _ ih => exact .left ih

theorem bind {good : α → ω → ω' → Prop} {goal : Except Fault β → ω → ω' → Prop}
    {f : α → Script ω (TaskReply ρ τ) β} {f' : α → Script ω' (TaskReply ρ τ') β}
    (first : Next.Alongside b body body' (Both good bad) next next')
    (second : ∀ a w w', good a w w' → Next.Alongside b body body' goal (f a w) (f' a w'))
    (fails : ∀ e w w', bad e w w' → goal (.error e) w w') :
    Next.Alongside b body body' goal (next.bind f) (next'.bind f') := by
  induction first with
  | @finish r w w' holds =>
    cases r with
    | ok a => exact second a w w' holds
    | error e => exact .finish (fails e w w' holds)
  | call pre _ ih => exact .call pre ih
  | left _ ih =>
    rw [Next.andThen_bind] at ih
    exact .left ih
  | right _ ih =>
    rw [Next.andThen_bind] at ih
    exact .right ih

theorem forM {f : β → Script ω (TaskReply ρ τ) Unit} {f' : β → Script ω' (TaskReply ρ τ') Unit}
    (inv : List β → ω → ω' → Prop) (bad : Fault → ω → ω' → Prop)
    (step : ∀ x rest w w', inv (x :: rest) w w' →
      Next.Alongside b body body' (Both (fun _ => inv rest) bad) (f x w) (f' x w')) :
    (items : List β) → {w : ω} → {w' : ω'} → inv items w w' →
      Next.Alongside b body body' (Both (fun _ => inv []) bad) (items.forM f w) (items.forM f' w')
  | [], _, _, holds => .finish holds
  | x :: items, _, _, holds =>
    bind (step x items _ _ holds) (fun _ _ _ holds => forM inv bad step items holds) fun _ _ _ holds => holds

end Next.Alongside

theorem Bond.Joins.flip (joins : b.Joins body body') : b.flip.Joins body' body :=
  fun c w' w pre => (joins c w w' pre).flip

/-- The code itself, or what its first loops have come to. -/
inductive Next.Unrolls (body : (task : κ ⊕ ι) → Script ω (TaskReply ρ τ) (TaskReply ρ τ task)) :
    Next ω (TaskReply ρ τ) α → Next ω (TaskReply ρ τ) α → Prop where
  | refl {next : Next ω (TaskReply ρ τ) α} : Unrolls body next next
  | loop {l : ι} {w : ω} {resume : Except Fault (τ l) → ω → Next ω (TaskReply ρ τ) α}
      {next : Next ω (TaskReply ρ τ) α} :
      Unrolls body ((body (.inr l) w).andThen resume) next → Unrolls body (.call (.inr l) w resume) next

namespace Next.Unrolls

variable {goal : Except Fault α → ω → ω' → Prop} {next unrolled : Next ω (TaskReply ρ τ) α}
  {next' unrolled' : Next ω' (TaskReply ρ τ') α}

theorem left (unrolls : Next.Unrolls body next unrolled)
    (along : Next.Alongside b body body' goal unrolled next') :
    Next.Alongside b body body' goal next next' := by
  induction unrolls with
  | refl => exact along
  | loop _ ih => exact .left (ih along)

theorem right (unrolls : Next.Unrolls body' next' unrolled')
    (along : Next.Alongside b body body' goal next unrolled') :
    Next.Alongside b body body' goal next next' := by
  induction unrolls with
  | refl => exact along
  | loop _ ih => exact .right (ih along)

theorem trans {next₁ next₂ next₃ : Next ω (TaskReply ρ τ) α} (first : Next.Unrolls body next₁ next₂)
    (second : Next.Unrolls body next₂ next₃) : Next.Unrolls body next₁ next₃ := by
  induction first with
  | refl => exact second
  | loop _ ih => exact .loop (ih second)

theorem perform {l : ι} {w : ω} {next : Next ω (TaskReply ρ τ) (τ l)}
    (unrolls : Next.Unrolls body (body (.inr l) w) next) :
    Next.Unrolls body (Script.perform (Sum.inr l) w) next :=
  .loop (by rwa [Next.andThen_finish])

end Next.Unrolls

end Alongside

namespace World

variable {σ : Type} {t : Tag} {owner : NodeId} {lane : Lane} {k : Nat} {w : World σ}
  {places : List (Option NodeId)} {e : Fault}

def held (t : Tag) (owner : NodeId) (lane : Lane) (k : Nat) (w : World σ) : Except Fault (List Handle) :=
  (World.places t owner k w).map lane.held

theorem place?_of_places (all : World.places t owner k w = .ok places) (i : Nat) :
    World.place? t owner k i w = .ok places[i]? := by
  rw [World.places] at all
  rw [World.place?]
  cases got : w.arena.get t owner with
  | error e => simp [got, Except.map] at all
  | ok record =>
    rw [got] at all
    cases all
    rw [Except.map, Record.place?_eq]
    dsimp only
    cases (record.children t.fields)[k]? <;> rfl

theorem place?_of_places_error (all : World.places t owner k w = .error e) (i : Nat) :
    World.place? t owner k i w = .error e := by
  rw [World.place?, get_of_places_error all]
  rfl

theorem held_of_places (lane : Lane) (all : World.places t owner k w = .ok places) :
    World.held t owner lane k w = .ok (lane.held places) := by
  rw [held, all]
  rfl

theorem places_of_held {hs : List Handle} (holds : World.held t owner lane k w = .ok hs) :
    ∃ places, World.places t owner k w = .ok places ∧ lane.held places = hs := by
  rw [held] at holds
  cases all : World.places t owner k w with
  | error e => simp [all, Except.map] at holds
  | ok places => exact ⟨places, rfl, by simpa [all, Except.map] using holds⟩

theorem places_of_held_error (fails : World.held t owner lane k w = .error e) :
    World.places t owner k w = .error e := by
  rw [held] at fails
  cases all : World.places t owner k w with
  | error e' => simpa [all, Except.map] using fails
  | ok places => simp [all, Except.map] at fails

theorem length_places_of_one (here : t.lanes[k]? = some lane) (one : lane.arity = .one)
    (all : World.places t owner k w = .ok places) : places.length ≤ 1 := by
  have second := place?_of_places all 1
  rw [World.place?] at second
  cases got : w.arena.get t owner with
  | error e => simp [got, Except.map] at second
  | ok record =>
    rw [got, Except.map, Record.place?_succ_of_one t.fields record k here one 0] at second
    exact List.getElem?_eq_none_iff.mp (Except.ok.inj second).symm

end World

namespace Visitor

variable {σ σ' : Type} {t : Tag} {owner : NodeId} {lane : Lane} {k : Nat} {w : World σ}
  {places coming : List (Option NodeId)} {e : Fault}

namespace Cursor

/-- The places that the cursor has before it when `places` are in the lane. -/
def upcoming (places : List (Option NodeId)) : Cursor → List (Option NodeId)
  | live i => places.drop i
  | copy left => left

def code (t : Tag) (owner : NodeId) (category : Category) (k : Nat) : Cursor → Task σ Unit
  | live i => Loop.go ⟨t, owner, category, k, i⟩
  | copy left => left.forM (visitPlace category)

theorem upcoming_next (cursor : Cursor) (places : List (Option NodeId)) :
    cursor.next.upcoming places = (cursor.upcoming places).tail := by
  cases cursor with
  | live i => exact List.tail_drop.symm
  | copy left => rfl

theorem live_unrolls (v : Visitor σ) (all : World.places t owner k w = .ok places) {i : Nat}
    (left : (live i).upcoming places = coming) :
    Next.Unrolls v.body ((live i).code t owner lane.category k w)
      (match coming.head? with
      | none => .finish (.ok ()) w
      | some place => (visitPlace lane.category place >>= fun _ =>
          (live (i + 1)).code t owner lane.category k) w) := by
  have reads : World.place? t owner k i w = .ok coming.head? := by
    rw [World.place?_of_places all, ← List.head?_drop]
    exact congrArg (fun rest => Except.ok rest.head?) left
  refine Next.Unrolls.perform ?_
  change Next.Unrolls v.body ((Script.read (World.place? t owner k i) >>= _) w) _
  rw [Script.read_bind reads]
  cases coming.head? <;> exact .refl

/-- The next place is visited and then the rest. -/
theorem unrolls_cons (v : Visitor σ) (all : World.places t owner k w = .ok places) {cursor : Cursor}
    {place : Option NodeId} (left : cursor.upcoming places = place :: coming) :
    Next.Unrolls v.body (cursor.code t owner lane.category k w)
      ((visitPlace lane.category place >>= fun _ => cursor.next.code t owner lane.category k) w) := by
  cases cursor with
  | live i => exact live_unrolls v all left
  | copy rest =>
    cases left
    exact .refl

theorem unrolls_nil (v : Visitor σ) (all : World.places t owner k w = .ok places) {cursor : Cursor}
    (left : cursor.upcoming places = []) :
    Next.Unrolls v.body (cursor.code t owner lane.category k w) (.finish (.ok ()) w) := by
  cases cursor with
  | live i => exact live_unrolls v all left
  | copy rest =>
    cases left
    exact .refl

theorem unrolls_end (v : Visitor σ) (all : World.places t owner k w = .ok places) (cursor : Cursor)
    (none : lane.held (cursor.upcoming places) = []) :
    Next.Unrolls v.body (cursor.code t owner lane.category k w) (.finish (.ok ()) w) := by
  induction left : cursor.upcoming places generalizing cursor with
  | nil => exact unrolls_nil v all left
  | cons place coming ih =>
    rw [left] at none
    cases place with
    | none =>
      have next := cursor.upcoming_next places
      rw [left] at next
      exact (unrolls_cons v all left).trans (ih cursor.next (by rwa [next]) next)
    | some id => cases none

theorem unrolls_enter (v : Visitor σ) (all : World.places t owner k w = .ok places) (cursor : Cursor)
    {h : Handle} {rest : List Handle} (first : lane.held (cursor.upcoming places) = h :: rest) :
    ∃ cursor' : Cursor, lane.held (cursor'.upcoming places) = rest ∧
      cursor'.upcoming places <:+ cursor.upcoming places ∧
      Next.Unrolls v.body (cursor.code t owner lane.category k w)
        ((Script.perform (Sum.inl (Call.enter h)) >>= fun _ =>
          cursor'.code t owner lane.category k) w) := by
  induction left : cursor.upcoming places generalizing cursor with
  | nil =>
    rw [left] at first
    cases first
  | cons place coming ih =>
    rw [left] at first
    have next := cursor.upcoming_next places
    rw [left] at next
    cases place with
    | none =>
      obtain ⟨cursor', others, suffix, unrolls⟩ := ih cursor.next (by rwa [next]) next
      exact ⟨cursor', others, suffix.trans (List.suffix_cons _ _), (unrolls_cons v all left).trans unrolls⟩
    | some id =>
      obtain ⟨rfl, rfl⟩ := List.cons.inj first
      refine ⟨cursor.next, by rw [next]; rfl, by rw [next]; exact List.suffix_cons _ _, ?_⟩
      exact unrolls_cons v all left

end Cursor

/-- What has to be known of two walks over the node `owner`. Before each child is entered, `inv` holds of
the two worlds and both read the same children. While a sequence is walked it has to stay as it is. -/
structure Abreast (b : Bond (World σ) (World σ') Reply) (t : Tag) (owner : NodeId)
    (inv : World σ → World σ' → Prop) (bad : Fault → World σ → World σ' → Prop) : Prop where
  reads : ∀ {k lane w w'}, t.lanes[k]? = some lane → inv w w' →
    World.held t owner lane k w' = World.held t owner lane k w
  lost : ∀ {e w w'}, inv w w' → w.arena.get t owner = .error e → bad e w w'
  enter : ∀ {k lane w w' hs h}, t.lanes[k]? = some lane → inv w w' →
    World.held t owner lane k w = .ok hs → h ∈ hs →
      b.pre (.enter h) w w' ∧
      ∀ r u u', b.post (.enter h) w w' r u u' →
        Both (fun _ u u' => inv u u' ∧ (lane.arity = .many →
          World.places t owner k u = World.places t owner k w ∧
          World.places t owner k u' = World.places t owner k w')) bad r u u'

theorem walkLane_of_places (v : Visitor σ) (many : lane.arity = .many)
    (all : World.places t owner k w = .ok places) :
    ∃ cursor : Cursor, cursor.upcoming places = places ∧
      v.walkLane t owner lane k w = cursor.code t owner lane.category k w := by
  cases policy : v.policy w.state with
  | live => exact ⟨.live 0, rfl, walkLane_live many t owner k policy⟩
  | snapshot =>
    refine ⟨.copy places, rfl, ?_⟩
    rw [walkLane_snapshot many t owner k policy]
    exact Script.read_bind (f := World.places t owner k) all _

theorem walkLane_unrolls_error (v : Visitor σ) (many : lane.arity = .many)
    (all : World.places t owner k w = .error e) :
    Next.Unrolls v.body (v.walkLane t owner lane k w) (.finish (.error e) w) := by
  cases policy : v.policy w.state with
  | live =>
    rw [walkLane_live many t owner k policy]
    refine Next.Unrolls.perform ?_
    change Next.Unrolls v.body ((Script.read (World.place? t owner k 0) >>= _) w) _
    rw [Script.bind_apply, Script.read, World.place?_of_places_error all]
    exact .refl
  | snapshot =>
    rw [walkLane_snapshot many t owner k policy]
    change Next.Unrolls v.body ((Script.read (World.places t owner k) >>= _) w) _
    rw [Script.bind_apply, Script.read, all]
    exact .refl

theorem visitPlace_first (short : places.length ≤ 1) :
    (visitPlace lane.category places[0]?.join : Task σ Unit) =
      (lane.held places).head?.elim (pure ()) fun h => Script.perform (Sum.inl (Call.enter h)) := by
  match places with
  | [] | [none] | [some id] => rfl
  | _ :: _ :: _ => simp at short

namespace Abreast

variable {b : Bond (World σ) (World σ') Reply} {inv : World σ → World σ' → Prop}
  {bad : Fault → World σ → World σ' → Prop} (rule : Abreast b t owner inv bad) (v : Visitor σ)
  (v' : Visitor σ')

include rule

theorem cursors (here : t.lanes[k]? = some lane) (many : lane.arity = .many) {places' : List (Option NodeId)}
    (hs : List Handle) : ∀ {w : World σ} {w' : World σ'} {x x' : Cursor}, inv w w' →
      World.places t owner k w = .ok places → World.places t owner k w' = .ok places' →
      x.upcoming places <:+ places → lane.held (x.upcoming places) = hs → lane.held (x'.upcoming places') = hs →
      Next.Alongside b v.body v'.body (Both (fun _ => inv) bad) (x.code t owner lane.category k w)
        (x'.code t owner lane.category k w') := by
  induction hs with
  | nil =>
    intro w w' x x' holds all all' _ none none'
    exact (x.unrolls_end v all none).left ((x'.unrolls_end v' all' none').right (.finish holds))
  | cons h rest ih =>
    intro w w' x x' holds all all' within first first'
    obtain ⟨y, others, suffix, unrolls⟩ := x.unrolls_enter v all first
    obtain ⟨y', others', -, unrolls'⟩ := x'.unrolls_enter v' all' first'
    have reads := World.held_of_places lane all
    have member : h ∈ lane.held places := by
      have ahead : h ∈ lane.held (x.upcoming places) := by
        rw [first]
        exact List.mem_cons_self
      exact (within.sublist.filterMap _).subset ahead
    obtain ⟨pre, onward⟩ := rule.enter here holds reads member
    refine unrolls.left (unrolls'.right (.call pre fun r u u' post => ?_))
    have ends := onward r u u' post
    cases r with
    | error e => exact .finish ends
    | ok _ =>
      obtain ⟨same, same'⟩ := ends.2 many
      exact ih ends.1 (same.trans all) (same'.trans all') (suffix.trans within) others others'

theorem single (here : t.lanes[k]? = some lane) (one : lane.arity = .one) {w : World σ} {w' : World σ'}
    {places' : List (Option NodeId)} (holds : inv w w') (all : World.places t owner k w = .ok places)
    (all' : World.places t owner k w' = .ok places') (same : lane.held places' = lane.held places) :
    Next.Alongside b v.body v'.body (Both (fun _ => inv) bad)
      (visitPlace lane.category places[0]?.join w) (visitPlace lane.category places'[0]?.join w') := by
  rw [visitPlace_first (World.length_places_of_one here one all),
    visitPlace_first (World.length_places_of_one here one all'), same]
  have reads := World.held_of_places lane all
  cases children : lane.held places with
  | nil => exact .finish holds
  | cons h rest =>
    rw [children] at reads
    obtain ⟨pre, onward⟩ := rule.enter here holds reads List.mem_cons_self
    refine .call pre fun r u u' post => .finish ?_
    have ends := onward r u u' post
    cases r with
    | error e => exact ends
    | ok _ => exact ends.1

theorem walkLane (here : t.lanes[k]? = some lane) {w : World σ} {w' : World σ'} (holds : inv w w') :
    Next.Alongside b v.body v'.body (Both (fun _ => inv) bad) (v.walkLane t owner lane k w)
      (v'.walkLane t owner lane k w') := by
  have same := rule.reads here holds
  cases reads : World.held t owner lane k w with
  | error e =>
    rw [reads] at same
    have fails := World.places_of_held_error reads
    have fails' := World.places_of_held_error same
    have lost := rule.lost holds (World.get_of_places_error fails)
    cases arity : lane.arity with
    | many =>
      exact (walkLane_unrolls_error v arity fails).left
        ((walkLane_unrolls_error v' arity fails').right (.finish lost))
    | one =>
      rw [Visitor.walkLane, Visitor.walkLane, arity]
      simp only [Script.bind_apply, Script.read, World.place?_of_places_error fails,
        World.place?_of_places_error fails', Next.bind_finish_error]
      exact .finish lost
  | ok hs =>
    rw [reads] at same
    obtain ⟨places, all, eq⟩ := World.places_of_held reads
    obtain ⟨places', all', eq'⟩ := World.places_of_held same
    cases arity : lane.arity with
    | many =>
      obtain ⟨x, start, code⟩ := walkLane_of_places v arity all
      obtain ⟨x', start', code'⟩ := walkLane_of_places v' arity all'
      rw [code, code']
      exact rule.cursors v v' here arity hs holds all all' (by rw [start]) (by rw [start, eq])
        (by rw [start', eq'])
    | one =>
      rw [Visitor.walkLane, Visitor.walkLane, arity]
      dsimp only
      rw [Script.read_bind (World.place?_of_places all 0), Script.read_bind (World.place?_of_places all' 0)]
      exact rule.single v v' here arity holds all all' (eq'.trans eq.symm)

/-- What is known of two walks holds to their end. -/
theorem walk {w : World σ} {w' : World σ'} (holds : inv w w') :
    Next.Alongside b v.body v'.body (Both (fun _ => inv) bad) (v.body (.inl (.walk t owner)) w)
      (v'.body (.inl (.walk t owner)) w') := by
  refine (Next.Alongside.forM
    (fun lanes w w' => ∃ k, (t.lanes.drop k).zipIdx k = lanes ∧ inv w w') bad
    (fun lane rest w w' => ?_) t.lanes.zipIdx ⟨0, rfl, holds⟩).mono ?_
  · rintro ⟨k, left, holds⟩
    obtain ⟨lane, rfl, here, rest⟩ := Node.of_zipIdx_cons left
    refine (rule.walkLane v v' here holds).mono fun r u u' ends => ?_
    cases r with
    | ok _ => exact ⟨k + 1, rest, ends⟩
    | error e => exact ends
  · intro r u u' ends
    cases r with
    | ok _ =>
      obtain ⟨k, -, holds⟩ := ends
      exact holds
    | error e => exact ends

end Abreast

end Visitor

end ProgramTree
