import ProgramTree.Proofs.Walking

/-!
What is known of every run that comes to an end. The terms of a call say when it may be made and what
holds after it has succeeded or failed. Code meets the terms when it keeps to them at each of its calls,
whatever the calls reply within their own terms (`Next.Meets`). If the code of every task meets the
terms, then so does every run (`Terms.Kept.run`). Nothing is said about runs that do not end.

For the engines it is enough to look at one place at a time: `Visitor.Roams` and `Transformer.Roams` say
what has to be known of a walk over a node that may change under it.
-/

namespace ProgramTree

/-- The terms of calls `κ` that are answered by `ρ`. They are told what was shown before the call and
after it. -/
structure Terms (ω μ : Type) {κ : Type} (ρ : κ → Type) where
  pre : κ → List μ → ω → Prop
  good : (c : κ) → List μ → ω → List μ → ρ c → ω → Prop
  bad : κ → List μ → ω → List μ → Fault → ω → Prop

def Outcome {α : Type} (good : α → Prop) (bad : Fault → Prop) : Except Fault α → Prop
  | .ok a => good a
  | .error e => bad e

section Yields

variable {ω κ α : Type} {ρ : κ → Type} {body : (c : κ) → Script ω ρ (ρ c)} {goal : κ}

namespace Machine

/-- A run that has an outcome carries out the code of the innermost call first. -/
theorem yields_of_finish (steps : Nat) : ∀ {d : κ} {next : Next ω ρ (ρ d)} {stack : Stack ω ρ goal d}
    {outcome : Except Fault (ρ goal) × ω}, finish body steps ⟨next, stack⟩ = some outcome →
      ∃ past r w left, left < steps ∧ Yields body next past r w ∧
        finish body (left + 1) ⟨.finish r w, stack⟩ = some outcome := by
  induction steps using Nat.strong_induction_on with
  | _ steps ih =>
    intro d next stack outcome done
    obtain ⟨before, rfl⟩ : ∃ k, steps = k + 1 := by
      cases steps with
      | zero => cases done
      | succ k => exact ⟨k, rfl⟩
    cases next with
    | finish r w => exact ⟨[], r, w, before, Nat.lt_succ_self _, .finished r w, done⟩
    | call c w resume =>
      -- First the callee runs to its end, and then the caller goes on with the reply.
      obtain ⟨inner, reply, w₁, left, less, inside, rest⟩ := ih before (Nat.lt_succ_self _) done
      obtain ⟨outer, r, w₂, left', less', outside, last⟩ := ih left (by omega) rest
      exact ⟨_, r, w₂, left', by omega, .called inside outside, last⟩

theorem yields_of_run {steps : Nat} {c : κ} {w w' : ω} {r : Except Fault (ρ c)}
    (done : run body steps c w = some (r, w')) : ∃ past, Yields body (body c w) past r w' := by
  obtain ⟨past, r', w₁, left, -, yields, last⟩ := yields_of_finish steps done
  cases last
  exact ⟨past, yields⟩

end Machine

end Yields

section Meets

variable {ω κ ι α β : Type} {ρ : κ → Type} {τ : ι → Type} (calls : Terms ω (Moment ρ) ρ)
  (loops : Terms ω (Moment ρ) τ)

/-- After `past`, the code keeps to the terms of what it calls, and ends with `good` or with `bad`. -/
inductive Next.Meets {α : Type} (good : List (Moment ρ) → α → ω → Prop)
    (bad : List (Moment ρ) → Fault → ω → Prop) :
    List (Moment ρ) → Next ω (TaskReply ρ τ) α → Prop where
  | ok {past : List (Moment ρ)} {a : α} {w : ω} :
      good past a w → Meets good bad past (.finish (.ok a) w)
  | error {past : List (Moment ρ)} {e : Fault} {w : ω} :
      bad past e w → Meets good bad past (.finish (.error e) w)
  | call {past : List (Moment ρ)} {c : κ} {w : ω}
      {resume : Except Fault (ρ c) → ω → Next ω (TaskReply ρ τ) α} :
      calls.pre c past w →
      (∀ inner a w', calls.good c past w (past ++ [.began c] ++ inner ++ [.ended c (.ok a)]) a w' →
        Meets good bad (past ++ [.began c] ++ inner ++ [.ended c (.ok a)]) (resume (.ok a) w')) →
      (∀ inner e w', calls.bad c past w (past ++ [.began c] ++ inner ++ [.ended c (.error e)]) e w' →
        Meets good bad (past ++ [.began c] ++ inner ++ [.ended c (.error e)]) (resume (.error e) w')) →
      Meets good bad past (.call (.inl c) w resume)
  | loop {past : List (Moment ρ)} {l : ι} {w : ω}
      {resume : Except Fault (τ l) → ω → Next ω (TaskReply ρ τ) α} :
      loops.pre l past w →
      (∀ inner a w', loops.good l past w (past ++ inner) a w' →
        Meets good bad (past ++ inner) (resume (.ok a) w')) →
      (∀ inner e w', loops.bad l past w (past ++ inner) e w' →
        Meets good bad (past ++ inner) (resume (.error e) w')) →
      Meets good bad past (.call (.inr l) w resume)

def Terms.Serves (c : κ) (past : List (Moment ρ)) (w : ω) (next : Next ω (TaskReply ρ τ) (ρ c)) : Prop :=
  Next.Meets calls loops (fun past' a w' => calls.good c past w (past' ++ [.ended c (.ok a)]) a w')
    (fun past' e w' => calls.bad c past w (past' ++ [.ended c (.error e)]) e w')
    (past ++ [.began c]) next

/-- The code of every task meets its terms. -/
structure Terms.Kept (body : (task : κ ⊕ ι) → Script ω (TaskReply ρ τ) (TaskReply ρ τ task)) : Prop where
  call : ∀ c past w, calls.pre c past w → calls.Serves loops c past w (body (.inl c) w)
  loop : ∀ l past w, loops.pre l past w →
    Next.Meets calls loops (loops.good l past w) (loops.bad l past w) past (body (.inr l) w)

variable {calls loops} {body : (task : κ ⊕ ι) → Script ω (TaskReply ρ τ) (TaskReply ρ τ task)}
  {good : List (Moment ρ) → α → ω → Prop} {bad : List (Moment ρ) → Fault → ω → Prop}
  {past : List (Moment ρ)} {w w' : ω}

theorem Terms.Kept.of_yields (kept : Terms.Kept calls loops body) {next : Next ω (TaskReply ρ τ) α}
    {more : List (Moment (TaskReply ρ τ))} {r : Except Fault α}
    (yields : Machine.Yields body next more r w') (meets : Next.Meets calls loops good bad past next) :
    Outcome (good (past ++ visible more) · w') (bad (past ++ visible more) · w') r := by
  induction yields generalizing past bad with
  | finished r w =>
    cases meets with
    | ok holds => simpa [visible, Outcome] using holds
    | error holds => simpa [visible, Outcome] using holds
  | @called α task w w₁ w₂ resume inner outer reply r _ _ ihInner ihOuter =>
    cases meets with
    | @call _ c _ _ pre goods bads =>
      have inside := ihInner (kept.call c past w pre)
      have shown : past ++ visible (.began (.inl c) :: inner ++ .ended (.inl c) reply :: outer) =
          past ++ [.began c] ++ visible inner ++ [.ended c reply] ++ visible outer := by
        simp [visible, Moment.visible?]
      rw [shown]
      cases reply with
      | ok a => exact ihOuter (goods (visible inner) a w₁ inside)
      | error e => exact ihOuter (bads (visible inner) e w₁ inside)
    | @loop _ l _ _ pre goods bads =>
      have inside := ihInner (kept.loop l past w pre)
      have shown : past ++ visible (.began (.inr l) :: inner ++ .ended (.inr l) reply :: outer) =
          past ++ visible inner ++ visible outer := by
        rw [List.append_assoc]
        exact congrArg (past ++ ·) (Ends.visible_append (.began (.inr l) :: inner) _)
      rw [shown]
      cases reply with
      | ok a => exact ihOuter (goods (visible inner) a w₁ inside)
      | error e => exact ihOuter (bads (visible inner) e w₁ inside)

/-- Every run of a call that ends, ends within its terms. -/
theorem Terms.Kept.run (kept : Terms.Kept calls loops body) {steps : Nat} {c : κ}
    {r : Except Fault (ρ c)} (pre : calls.pre c [] w)
    (done : Machine.run body steps (.inl c) w = some (r, w')) :
    Outcome (calls.good c [] w (visible (Machine.history body steps (.inl c) w)) · w')
      (calls.bad c [] w (visible (Machine.history body steps (.inl c) w)) · w') r := by
  obtain ⟨more, yields⟩ := Machine.yields_of_run done
  have holds := kept.of_yields yields (kept.call c [] w pre)
  have shown : visible (Machine.history body steps (.inl c) w) =
      [] ++ [.began c] ++ visible more ++ [.ended c r] := by
    rw [(yields.run_eq done).2]
    simp [visible, Moment.visible?]
  rw [shown]
  cases r with
  | ok a => exact holds
  | error e => exact holds

namespace Next.Meets

theorem mono {good' : List (Moment ρ) → α → ω → Prop} {bad' : List (Moment ρ) → Fault → ω → Prop}
    {next : Next ω (TaskReply ρ τ) α} (meets : Next.Meets calls loops good bad past next)
    (goods : ∀ past a w, good past a w → good' past a w)
    (bads : ∀ past e w, bad past e w → bad' past e w) : Next.Meets calls loops good' bad' past next := by
  induction meets with
  | ok holds => exact .ok (goods _ _ _ holds)
  | error holds => exact .error (bads _ _ _ holds)
  | call pre _ _ ihGood ihBad => exact .call pre ihGood ihBad
  | loop pre _ _ ihGood ihBad => exact .loop pre ihGood ihBad

theorem weaken {good' : List (Moment ρ) → α → ω → Prop} {next : Next ω (TaskReply ρ τ) α}
    (meets : Next.Meets calls loops good bad past next)
    (goods : ∀ past a w, good past a w → good' past a w) : Next.Meets calls loops good' bad past next :=
  meets.mono goods fun _ _ _ holds => holds

theorem bind {next : Next ω (TaskReply ρ τ) α} {f : α → Script ω (TaskReply ρ τ) β}
    {middle : List (Moment ρ) → α → ω → Prop} {goal : List (Moment ρ) → β → ω → Prop}
    (first : Next.Meets calls loops middle bad past next)
    (second : ∀ past a w, middle past a w → Next.Meets calls loops goal bad past (f a w)) :
    Next.Meets calls loops goal bad past (next.bind f) := by
  induction first with
  | ok holds => exact second _ _ _ holds
  | error holds => exact .error holds
  | call pre _ _ ihGood ihBad => exact .call pre ihGood ihBad
  | loop pre _ _ ihGood ihBad => exact .loop pre ihGood ihBad

theorem perform {c : κ} (pre : calls.pre c past w) :
    Next.Meets calls loops (calls.good c past w) (calls.bad c past w) past
      (Script.perform (Sum.inl c) w) :=
  .call pre (fun _ _ _ holds => .ok holds) (fun _ _ _ holds => .error holds)

theorem round {l : ι} (pre : loops.pre l past w) :
    Next.Meets calls loops (loops.good l past w) (loops.bad l past w) past
      (Script.perform (Sum.inr l) w) :=
  .loop pre (fun _ _ _ holds => .ok holds) (fun _ _ _ holds => .error holds)

theorem read {f : ω → Except Fault α} {g : α → Script ω (TaskReply ρ τ) β}
    {goal : List (Moment ρ) → β → ω → Prop}
    (reads : ∀ a, f w = .ok a → Next.Meets calls loops goal bad past (g a w))
    (fails : ∀ e, f w = .error e → bad past e w) :
    Next.Meets calls loops goal bad past ((Script.read f >>= g) w) := by
  rw [Script.bind_apply, Script.read]
  cases found : f w with
  | ok a => exact reads a found
  | error e => exact .error (fails e found)

theorem forM {f : β → Script ω (TaskReply ρ τ) Unit} (inv : List β → List (Moment ρ) → ω → Prop)
    (step : ∀ b rest past w, inv (b :: rest) past w →
      Next.Meets calls loops (fun past _ w => inv rest past w) bad past (f b w)) :
    (items : List β) → {past : List (Moment ρ)} → {w : ω} → inv items past w →
      Next.Meets calls loops (fun past _ w => inv [] past w) bad past (items.forM f w)
  | [], _, _, holds => .ok holds
  | b :: items, _, _, holds =>
    bind (step b items _ _ holds) fun _ _ _ holds => forM inv step items holds

end Next.Meets

end Meets

namespace Arena

/-- The handle names a node of its category. -/
def Good (a : Arena) (h : Handle) : Prop :=
  ∃ n, a.Shows h n

/-- What is wrong with a handle that is not good. -/
inductive Blames (a : Arena) (h : Handle) : Fault → Prop where
  | dangling : a.size ≤ h.node.index → Blames a h (.danglingHandle h.node a.size)
  | category {n : Node} : a.node h.node = .ok n → n.category ≠ h.category →
      Blames a h (.unknownNode h.category h.node n.tag)

variable {a : Arena} {id : NodeId} {e : Fault}

theorem size_le_of_node_error (missing : a.node id = .error e) :
    a.size ≤ id.index ∧ e = .danglingHandle id a.size := by
  unfold node at missing
  split at missing
  · cases missing
  · rename_i beyond
    cases missing
    exact ⟨Array.getElem?_eq_none_iff.mp beyond, rfl⟩

theorem lt_size_of_node {n : Node} (stored : a.node id = .ok n) : id.index < a.size := by
  rw [node_eq_ok_iff] at stored
  exact (Array.getElem?_eq_some_iff.mp stored).choose

theorem Blames.not_good {h : Handle} (blames : a.Blames h e) : ¬ a.Good h := by
  rintro ⟨m, shown, category⟩
  cases blames with
  | dangling beyond =>
    have := lt_size_of_node shown
    omega
  | category found other =>
    cases found.symm.trans shown
    exact other category

end Arena

namespace World

variable {σ : Type} {t : Tag} {owner : NodeId} {k i : Nat} {w w' : World σ} {e : Fault}

theorem classify_of_not_good {h : Handle} (bad : ¬ w.arena.Good h) :
    ∃ e w', w.arena.Blames h e ∧ World.classify h w = (.error e, w') := by
  unfold World.classify
  cases found : w.arena.node h.node with
  | error e =>
    obtain ⟨beyond, rfl⟩ := Arena.size_le_of_node_error found
    exact ⟨_, w, .dangling beyond, rfl⟩
  | ok n =>
    have category : n.tag.category ≠ h.category := fun same => bad ⟨n, found, same⟩
    simp only [category, if_false]
    exact ⟨_, _, .category found category, rfl⟩

theorem get_of_place?_error (fails : World.place? t owner k i w = .error e) :
    w.arena.get t owner = .error e := by
  rw [place?] at fails
  cases found : w.arena.get t owner with
  | error e' => simpa [found, Except.map] using fails
  | ok record => simp [found, Except.map] at fails

theorem fill_of_none {n : Node} (stored : w.arena.node owner = .ok n) (gone : n.place? k i = none)
    (new : NodeId) : World.fill n.tag owner k i new w = (.ok false, w) := by
  rw [Node.place?] at gone
  rw [fill, Arena.get_of_node stored]
  simp only [gone]

theorem get_of_places_error (fails : World.places t owner k w = .error e) :
    w.arena.get t owner = .error e := by
  rw [places] at fails
  cases found : w.arena.get t owner with
  | error e' => simpa [found, Except.map] using fails
  | ok record => simp [found, Except.map] at fails

end World

namespace Visitor

variable {σ : Type}

/-- What is left to read of a lane: the positions from `i` on, or the rest of a copy. -/
inductive Cursor where
  | live (i : Nat)
  | copy (left : List (Option NodeId))

namespace Cursor

def place? (t : Tag) (owner : NodeId) (k : Nat) :
    Cursor → World σ → Except Fault (Option (Option NodeId))
  | live i, w => World.place? t owner k i w
  | copy left, _ => .ok left.head?

def next : Cursor → Cursor
  | live i => live (i + 1)
  | copy left => copy left.tail

end Cursor

/-- What has to be known of a walk over a node that may change: `inv k cursor` speaks of the moment
before the next place of lane `k` is read. -/
structure Roams (policy : σ → Policy) (calls : Terms (World σ) (Moment Reply) Reply) (t : Tag)
    (owner : NodeId) (inv : Nat → Cursor → List (Moment Reply) → World σ → Prop)
    (bad : List (Moment Reply) → Fault → World σ → Prop) : Prop where
  lost : ∀ {k cursor past w e}, inv k cursor past w → w.arena.get t owner = .error e → bad past e w
  copy : ∀ {k past w left}, policy w.state = .snapshot → inv k (.live 0) past w →
    World.places t owner k w = .ok left → inv k (.copy left) past w
  skip : ∀ {k cursor past w}, inv k cursor past w → cursor.place? t owner k w = .ok (some none) →
    inv k cursor.next past w
  enter : ∀ {k cursor past w lane id}, t.lanes[k]? = some lane → inv k cursor past w →
    cursor.place? t owner k w = .ok (some (some id)) →
      calls.pre (.enter ⟨lane.category, id⟩) past w ∧
      (∀ past' w', calls.good (.enter ⟨lane.category, id⟩) past w past' () w' →
        inv k cursor.next past' w') ∧
      (∀ past' e w', calls.bad (.enter ⟨lane.category, id⟩) past w past' e w' → bad past' e w')
  stop : ∀ {k cursor past w lane}, t.lanes[k]? = some lane → inv k cursor past w →
    cursor.place? t owner k w = .ok none → inv (k + 1) (.live 0) past w
  single : ∀ {k past w lane}, t.lanes[k]? = some lane → lane.arity = .one →
    inv k (.live 1) past w → inv (k + 1) (.live 0) past w

section Rounds

variable (policy : σ → Policy) (calls : Terms (World σ) (Moment Reply) Reply) (t : Tag) (owner : NodeId)
  (k : Nat) (cursor : Cursor) (past : List (Moment Reply)) (w : World σ)

/-- Something is known of the walk that comes here. -/
def Stands : Prop :=
  ∃ inv bad, Roams policy calls t owner inv bad ∧ inv k cursor past w

/-- Whatever is known of the walk, it holds further on. -/
def Moves (k' : Nat) (cursor' : Cursor) (past' : List (Moment Reply)) (w' : World σ) : Prop :=
  ∀ inv bad, Roams policy calls t owner inv bad → inv k cursor past w → inv k' cursor' past' w'

/-- Whatever is known of the walk, it has failed accordingly. -/
def Breaks (past' : List (Moment Reply)) (e : Fault) (w' : World σ) : Prop :=
  ∀ inv bad, Roams policy calls t owner inv bad → inv k cursor past w → bad past' e w'

def rounds : Terms (World σ) (Moment Reply) fun _ : Loop => Unit where
  pre l past w := l.t.lanes[l.k]?.map Lane.category = some l.category ∧
    Stands policy calls l.t l.owner l.k (.live l.i) past w
  good l past w past' _ w' :=
    Moves policy calls l.t l.owner l.k (.live l.i) past w (l.k + 1) (.live 0) past' w'
  bad l past w past' e w' := Breaks policy calls l.t l.owner l.k (.live l.i) past w past' e w'

end Rounds

section Roaming

variable {v : Visitor σ} {calls : Terms (World σ) (Moment Reply) Reply} {t : Tag} {owner : NodeId}
  {k : Nat} {lane : Lane} {cursor : Cursor} {past : List (Moment Reply)} {w : World σ}

theorem visitPlace_meets {policy : σ → Policy} {place : Option NodeId} (here : t.lanes[k]? = some lane)
    (reads : cursor.place? t owner k w = .ok (some place))
    (stands : Stands policy calls t owner k cursor past w) :
    Next.Meets calls (rounds policy calls)
      (fun past' _ w' => Moves policy calls t owner k cursor past w k cursor.next past' w')
      (Breaks policy calls t owner k cursor past w) past (visitPlace lane.category place w) := by
  cases place with
  | none => exact .ok fun _ _ rule holds => rule.skip holds reads
  | some id =>
    obtain ⟨_, _, rule, holds⟩ := stands
    refine (Next.Meets.perform (rule.enter here holds reads).1).mono ?_ ?_
    · intro past' _ w' good _ _ rule holds
      exact (rule.enter here holds reads).2.1 past' w' good
    · intro past' e w' failed _ _ rule holds
      exact (rule.enter here holds reads).2.2 past' e w' failed

theorem loop_meets {l : Loop} (pre : (rounds v.policy calls).pre l past w) :
    Next.Meets calls (rounds v.policy calls) ((rounds v.policy calls).good l past w)
      ((rounds v.policy calls).bad l past w) past (v.body (.inr l) w) := by
  obtain ⟨t, owner, category, k, i⟩ := l
  obtain ⟨here, stands⟩ := pre
  obtain ⟨lane, here, rfl⟩ := Option.map_eq_some_iff.mp here
  refine Next.Meets.read (fun place reads => ?_) (fun e fails => ?_)
  · cases place with
    | none => exact .ok fun _ _ rule holds => rule.stop here holds reads
    | some place =>
      have comes : Cursor.place? t owner k (.live i) w = .ok (some place) := reads
      refine (visitPlace_meets here comes stands).bind fun past' _ w' moves => ?_
      obtain ⟨inv, bad, rule, holds⟩ := stands
      have onward : (rounds v.policy calls).pre ⟨t, owner, lane.category, k, i + 1⟩ past' w' :=
        ⟨by rw [here]; rfl, inv, bad, rule, moves inv bad rule holds⟩
      refine (Next.Meets.round onward).mono ?_ ?_
      · intro past'' _ w'' good inv bad rule holds
        exact good inv bad rule (moves inv bad rule holds)
      · intro past'' e w'' failed inv bad rule holds
        exact failed inv bad rule (moves inv bad rule holds)
  · exact fun _ _ rule holds => rule.lost holds (World.get_of_place?_error fails)

variable {inv : Nat → Cursor → List (Moment Reply) → World σ → Prop}
  {bad : List (Moment Reply) → Fault → World σ → Prop} (rule : Roams v.policy calls t owner inv bad)

include rule

theorem Roams.visitPlace {place : Option NodeId} (here : t.lanes[k]? = some lane)
    (reads : cursor.place? t owner k w = .ok (some place)) (holds : inv k cursor past w) :
    Next.Meets calls (rounds v.policy calls) (fun past _ w => inv k cursor.next past w) bad past
      (visitPlace lane.category place w) := by
  refine (visitPlace_meets here reads ⟨inv, bad, rule, holds⟩).mono ?_ ?_
  · exact fun _ _ _ moves => moves inv bad rule holds
  · exact fun _ _ _ breaks => breaks inv bad rule holds

theorem Roams.visitCopy (here : t.lanes[k]? = some lane) (copies : v.policy w.state = .snapshot)
    (holds : inv k (.live 0) past w) :
    Next.Meets calls (rounds v.policy calls) (fun past _ w => inv (k + 1) (.live 0) past w) bad past
      (Sequence.visitCopy (Access.lane t owner k) (Visitor.visitPlace lane.category) w) := by
  refine Next.Meets.read (fun left reads => ?_) (fun e fails => ?_)
  · refine (Next.Meets.forM (fun left past w => inv k (.copy left) past w)
      (fun place rest past w holds => ?_) left (rule.copy copies holds reads)).weaken ?_
    · exact rule.visitPlace here rfl holds
    · exact fun past _ w holds => rule.stop here holds rfl
  · exact rule.lost holds (World.get_of_places_error fails)

theorem Roams.walkLane (here : t.lanes[k]? = some lane) (holds : inv k (.live 0) past w) :
    Next.Meets calls (rounds v.policy calls) (fun past _ w => inv (k + 1) (.live 0) past w) bad past
      (v.walkLane t owner lane k w) := by
  cases arity : lane.arity with
  | one =>
    rw [Visitor.walkLane, arity]
    refine Next.Meets.read (fun place reads => ?_) (fun e fails => ?_)
    · cases place with
      | none => exact .ok (rule.stop here holds reads)
      | some place =>
        have comes : Cursor.place? t owner k (.live 0) w = .ok (some place) := reads
        exact (rule.visitPlace here comes holds).weaken fun _ _ _ holds => rule.single here arity holds
    · exact rule.lost holds (World.get_of_place?_error fails)
  | many =>
    cases policy : v.policy w.state with
    | live =>
      rw [walkLane_live arity t owner k policy]
      have onward : (rounds v.policy calls).pre ⟨t, owner, lane.category, k, 0⟩ past w :=
        ⟨by rw [here]; rfl, inv, bad, rule, holds⟩
      refine (Next.Meets.round onward).mono ?_ ?_
      · exact fun _ _ _ moves => moves inv bad rule holds
      · exact fun _ _ _ breaks => breaks inv bad rule holds
    | snapshot =>
      rw [walkLane_snapshot arity t owner k policy]
      exact rule.visitCopy here policy holds

/-- What is known of a walk holds from its first place to its end. -/
theorem Roams.walk (holds : inv 0 (.live 0) past w) :
    Next.Meets calls (rounds v.policy calls) (fun past _ w => inv t.lanes.length (.live 0) past w) bad
      past (v.body (.inl (.walk t owner)) w) := by
  refine (Next.Meets.forM
    (fun lanes past w => ∃ k, k ≤ t.lanes.length ∧ (t.lanes.drop k).zipIdx k = lanes ∧
      inv k (.live 0) past w)
    (fun lane rest past w => ?_) t.lanes.zipIdx ⟨0, Nat.zero_le _, rfl, holds⟩).weaken ?_
  · rintro ⟨k, -, left, holds⟩
    obtain ⟨lane, rfl, here, rest⟩ := Node.of_zipIdx_cons left
    refine (rule.walkLane here holds).weaken fun past _ w holds => ?_
    exact ⟨k + 1, (List.getElem?_eq_some_iff.mp here).choose, rest, holds⟩
  · rintro past _ w ⟨k, within, left, holds⟩
    obtain rfl := Nat.le_antisymm within (Node.of_zipIdx_nil left)
    exact holds

end Roaming

structure Keeps (v : Visitor σ) (calls : Terms (World σ) (Moment Reply) Reply) : Prop where
  enter : ∀ {h past w}, calls.pre (.enter h) past w →
    calls.Serves (rounds v.policy calls) (.enter h) past w ((v.enter h).embed w)
  unknown : ∀ {h past w e w'}, calls.pre (.dispatch h) past w → w.arena.Blames h e →
    World.classify h w = (.error e, w') →
      calls.bad (.dispatch h) past w (past ++ [.began (.dispatch h)] ++ [.ended (.dispatch h) (.error e)])
        e w'
  method : ∀ {h past w n}, calls.pre (.dispatch h) past w → w.arena.Shows h n →
    calls.Serves (rounds v.policy calls) (.dispatch h) past w ((v.method n.tag h.node).embed w)
  walk : ∀ {t owner past w}, calls.pre (.walk t owner) past w →
    ∃ inv bad, Roams v.policy calls t owner inv bad ∧
      inv 0 (.live 0) (past ++ [.began (.walk t owner)]) w ∧
      (∀ past' w', inv t.lanes.length (.live 0) past' w' →
        calls.good (.walk t owner) past w (past' ++ [.ended (.walk t owner) (.ok ())]) () w') ∧
      (∀ past' e w', bad past' e w' →
        calls.bad (.walk t owner) past w (past' ++ [.ended (.walk t owner) (.error e)]) e w')

namespace Keeps

variable {v : Visitor σ} {calls : Terms (World σ) (Moment Reply) Reply} (keeps : v.Keeps calls)

include keeps

theorem kept : Terms.Kept calls (rounds v.policy calls) v.body where
  loop _ _ _ pre := loop_meets pre
  call c past w pre := by
    cases c with
    | enter h => exact keeps.enter pre
    | dispatch h =>
      by_cases good : w.arena.Good h
      · obtain ⟨n, shown⟩ := good
        rw [body, Script.step_bind (World.classify_of_shows shown)]
        exact keeps.method pre shown
      · obtain ⟨e, w', blames, stuck⟩ := World.classify_of_not_good good
        rw [body, Script.step_bind_error stuck]
        exact .error (keeps.unknown pre blames stuck)
    | walk t owner =>
      obtain ⟨inv, bad, rule, start, good, failed⟩ := keeps.walk pre
      exact (rule.walk start).mono (fun past' _ w' holds => good past' w' holds) failed

theorem run {steps : Nat} {c : Call} {w w' : World σ} {r : Except Fault Unit}
    (pre : calls.pre c [] w) (done : v.run steps c w = some (r, w')) :
    Outcome (calls.good c [] w (v.history steps c w) · w') (calls.bad c [] w (v.history steps c w) · w')
      r :=
  keeps.kept.run pre done

end Keeps

end Visitor

namespace Transformer

variable {σ : Type}

/-- What is to be known when `new` has been answered for `place`: it is stored if it differs, or
dropped if the place is gone. -/
def Landed (t : Tag) (owner : NodeId)
    (inv : (k i x : Nat) → List (Moment Reply) → World (Tally σ) → Prop)
    (bad : List (Moment Reply) → Fault → World (Tally σ) → Prop) (lane : Lane) (k i x : Nat)
    (place : Option NodeId) (past : List (Moment Reply)) (new : Option NodeId) (w : World (Tally σ)) :
    Prop :=
  if new = place then inv k (i + 1) x past w
  else
    match (Access.lane t owner k).write i new w with
    | (.ok true, w') => inv k (i + 1) (x + 1) past w'
    | (.ok false, w') =>
      inv k (i + 1) x past (match lane.arity with
        | .one => w'
        | .many => w'.note (.dropped i))
    | (.error e, w') => bad past e w'

theorem landed_of_node {inv : (k i x : Nat) → List (Moment Reply) → World (Tally σ) → Prop}
    {bad : List (Moment Reply) → Fault → World (Tally σ) → Prop} {n : Node} {owner : NodeId} {lane : Lane}
    {k i x : Nat} {id new : NodeId} {past : List (Moment Reply)} {w : World (Tally σ)}
    (stored : w.arena.node owner = .ok n) (keep : new = id → inv k (i + 1) x past w)
    (store : new ≠ id → ∀ old, n.place? k i = some old →
      inv k (i + 1) (x + 1) past { w with arena := w.arena.put n.tag owner (n.fill k i new).record })
    (drop : new ≠ id → n.place? k i = none →
      inv k (i + 1) x past (match lane.arity with
        | .one => w
        | .many => w.note (.dropped i))) :
    Landed n.tag owner inv bad lane k i x (some id) past (some new) w := by
  rw [Landed]
  by_cases same : new = id
  · rw [if_pos (congrArg some same)]
    exact keep same
  · rw [if_neg fun both => same (Option.some.inj both), Access.lane]
    cases there : n.place? k i with
    | none =>
      simp only [World.fill_of_none stored there]
      exact drop same there
    | some old =>
      simp only [World.fill_of_node stored there]
      exact store same old there

/-- What has to be known of a walk over a node that may change: `inv k i x` speaks of the moment before
position `i` of lane `k` is read, when `x` places of that lane were overwritten and have not been
counted. -/
structure Roams (calls : Terms (World (Tally σ)) (Moment Reply) Reply) (t : Tag) (owner : NodeId)
    (inv : (k i x : Nat) → List (Moment Reply) → World (Tally σ) → Prop)
    (bad : List (Moment Reply) → Fault → World (Tally σ) → Prop) : Prop where
  lost : ∀ {k i x past w e}, inv k i x past w → w.arena.get t owner = .error e → bad past e w
  skip : ∀ {k i x past w}, inv k i x past w → World.place? t owner k i w = .ok (some none) →
    inv k (i + 1) x past w
  enter : ∀ {k i x past w lane id}, t.lanes[k]? = some lane → inv k i x past w →
    World.place? t owner k i w = .ok (some (some id)) →
      calls.pre (.enter ⟨lane.category, id⟩) past w ∧
      (∀ past' new w', calls.good (.enter ⟨lane.category, id⟩) past w past' new w' →
        Landed t owner inv bad lane k i x (some id) past' (some new) w') ∧
      (∀ past' e w', calls.bad (.enter ⟨lane.category, id⟩) past w past' e w' → bad past' e w')
  stop : ∀ {k i x past w lane}, t.lanes[k]? = some lane → inv k i x past w →
    World.place? t owner k i w = .ok none → inv (k + 1) 0 0 past (w.bump x)
  single : ∀ {k x past w lane}, t.lanes[k]? = some lane → lane.arity = .one →
    inv k 1 x past w → inv (k + 1) 0 0 past (w.bump x)

section Rounds

variable (calls : Terms (World (Tally σ)) (Moment Reply) Reply) (t : Tag) (owner : NodeId)
  (k i x : Nat) (past : List (Moment Reply)) (w : World (Tally σ))

def Stands : Prop :=
  ∃ inv bad, Roams calls t owner inv bad ∧ inv k i x past w

def Moves (k' i' x' : Nat) (past' : List (Moment Reply)) (w' : World (Tally σ)) : Prop :=
  ∀ inv bad, Roams calls t owner inv bad → inv k i x past w → inv k' i' x' past' w'

def Breaks (past' : List (Moment Reply)) (e : Fault) (w' : World (Tally σ)) : Prop :=
  ∀ inv bad, Roams calls t owner inv bad → inv k i x past w → bad past' e w'

def rounds : Terms (World (Tally σ)) (Moment Reply) fun _ : Loop => Nat where
  pre l past w := (∃ lane, l.t.lanes[l.k]? = some lane ∧ lane.category = l.category ∧
    lane.arity = .many) ∧ Stands calls l.t l.owner l.k l.i l.replaced past w
  good l past w past' x w' :=
    Moves calls l.t l.owner l.k l.i l.replaced past w (l.k + 1) 0 0 past' (w'.bump x)
  bad l past w past' e w' := Breaks calls l.t l.owner l.k l.i l.replaced past w past' e w'

end Rounds

section Roaming

variable {calls : Terms (World (Tally σ)) (Moment Reply) Reply} {t : Tag} {owner : NodeId}
  {k i x : Nat} {lane : Lane} {past : List (Moment Reply)} {w : World (Tally σ)}

theorem replacePlace_meets {place : Option NodeId} (here : t.lanes[k]? = some lane)
    (reads : World.place? t owner k i w = .ok (some place))
    (stands : Stands calls t owner k i x past w) :
    Next.Meets calls (rounds calls)
      (fun past' new w' => ∀ inv bad, Roams calls t owner inv bad → inv k i x past w →
        Landed t owner inv bad lane k i x place past' new w')
      (Breaks calls t owner k i x past w) past (replacePlace lane.category place w) := by
  cases place with
  | none =>
    refine .ok fun inv bad rule holds => ?_
    rw [Landed, if_pos rfl]
    exact rule.skip holds reads
  | some id =>
    obtain ⟨_, _, rule, holds⟩ := stands
    refine ((Next.Meets.perform (rule.enter here holds reads).1).mono (fun _ _ _ good => good) ?_).bind
      fun past' new w' good => .ok ?_
    · intro past' e w' failed _ _ rule holds
      exact (rule.enter here holds reads).2.2 past' e w' failed
    · intro inv bad rule holds
      exact (rule.enter here holds reads).2.1 past' new w' good

theorem replace_meets {α : Type} {good : List (Moment Reply) → α → World (Tally σ) → Prop}
    {kept stored dropped : Task σ α} {place : Option NodeId} (here : t.lanes[k]? = some lane)
    (reads : World.place? t owner k i w = .ok (some place))
    (stands : Stands calls t owner k i x past w)
    (keep : ∀ past' w', Moves calls t owner k i x past w k (i + 1) x past' w' →
      Next.Meets calls (rounds calls) good (Breaks calls t owner k i x past w) past' (kept w'))
    (store : ∀ past' w', Moves calls t owner k i x past w k (i + 1) (x + 1) past' w' →
      Next.Meets calls (rounds calls) good (Breaks calls t owner k i x past w) past' (stored w'))
    (drop : ∀ past' w',
      Moves calls t owner k i x past w k (i + 1) x past' (match lane.arity with
        | .one => w'
        | .many => w'.note (.dropped i)) →
      Next.Meets calls (rounds calls) good (Breaks calls t owner k i x past w) past' (dropped w')) :
    Next.Meets calls (rounds calls) good (Breaks calls t owner k i x past w) past
      ((do
        let new ← replacePlace lane.category place
        if new = place then kept
        else if ← Script.step ((Access.lane t owner k).write i new) then stored
        else dropped : Task σ α) w) := by
  refine (replacePlace_meets here reads stands).bind fun past' new w' landed => ?_
  unfold Landed at landed
  by_cases same : new = place
  · simp only [if_pos same] at landed ⊢
    exact keep past' w' landed
  · simp only [if_neg same] at landed ⊢
    rw [Script.bind_apply, Script.step]
    rcases write : (Access.lane t owner k).write i new w' with ⟨result, w''⟩
    simp only [write] at landed ⊢
    cases result with
    | error e => exact .error landed
    | ok fits =>
      cases fits with
      | true => exact store past' w'' landed
      | false => exact drop past' w'' landed

theorem loop_meets {r : Transformer σ} {l : Loop} (pre : (rounds calls).pre l past w) :
    Next.Meets calls (rounds calls) ((rounds calls).good l past w) ((rounds calls).bad l past w) past
      (r.body (.inr l) w) := by
  obtain ⟨t, owner, category, k, i, x⟩ := l
  obtain ⟨⟨lane, here, rfl, many⟩, stands⟩ := pre
  have again : ∀ {past' w' y}, Moves calls t owner k i x past w k (i + 1) y past' w' →
      Next.Meets calls (rounds calls)
        (fun past' z w' => Moves calls t owner k i x past w (k + 1) 0 0 past' (w'.bump z))
        (Breaks calls t owner k i x past w) past'
        (Script.perform (Sum.inr ⟨t, owner, lane.category, k, i + 1, y⟩) w') := by
    intro past' w' y moves
    obtain ⟨inv, bad, rule, holds⟩ := stands
    have onward : (rounds calls).pre ⟨t, owner, lane.category, k, i + 1, y⟩ past' w' :=
      ⟨⟨lane, here, rfl, many⟩, inv, bad, rule, moves inv bad rule holds⟩
    refine (Next.Meets.round onward).mono ?_ ?_
    · intro past'' _ w'' good inv bad rule holds
      exact good inv bad rule (moves inv bad rule holds)
    · intro past'' e w'' failed inv bad rule holds
      exact failed inv bad rule (moves inv bad rule holds)
  refine Next.Meets.read (fun place reads => ?_) (fun e fails => ?_)
  · cases place with
    | none => exact .ok fun _ _ rule holds => rule.stop here holds reads
    | some place =>
      refine replace_meets here reads stands (fun _ _ => again) (fun _ _ => again) ?_
      intro past' w' moves
      rw [many] at moves
      exact again moves
  · exact fun _ _ rule holds => rule.lost holds (World.get_of_place?_error fails)

variable {inv : (k i x : Nat) → List (Moment Reply) → World (Tally σ) → Prop}
  {bad : List (Moment Reply) → Fault → World (Tally σ) → Prop} (rule : Roams calls t owner inv bad)

include rule

theorem Roams.walkLane (here : t.lanes[k]? = some lane) (holds : inv k 0 0 past w) :
    Next.Meets calls (rounds calls) (fun past _ w => inv (k + 1) 0 0 past w) bad past
      (walkLane t owner lane k w) := by
  rw [Transformer.walkLane]
  cases arity : lane.arity with
  | one =>
    refine Next.Meets.read (fun place reads => ?_) (fun e fails => ?_)
    · cases place with
      | none =>
        have done := rule.stop here holds reads
        rw [World.bump_zero] at done
        exact .ok done
      | some place =>
        have single : ∀ {past' w' x}, Moves calls t owner k 0 0 past w k 1 x past' w' →
            inv (k + 1) 0 0 past' (w'.bump x) :=
          fun moves => rule.single here arity (moves inv bad rule holds)
        refine Next.Meets.mono (replace_meets here reads ⟨inv, bad, rule, holds⟩ (fun past' w' moves => ?_)
          (fun past' w' moves => ?_) fun past' w' moves => ?_) (fun _ _ _ good => good)
          fun _ _ _ breaks => breaks inv bad rule holds
        · have done := single moves
          rw [World.bump_zero] at done
          exact .ok done
        · exact .ok (single moves)
        · rw [arity] at moves
          have done := single moves
          rw [World.bump_zero] at done
          exact .ok done
    · exact rule.lost holds (World.get_of_place?_error fails)
  | many =>
    have onward : (rounds calls).pre ⟨t, owner, lane.category, k, 0, 0⟩ past w :=
      ⟨⟨lane, here, rfl, arity⟩, inv, bad, rule, holds⟩
    refine ((Next.Meets.round onward).mono (fun _ _ _ good => good) ?_).bind ?_
    · exact fun _ _ _ breaks => breaks inv bad rule holds
    · exact fun _ _ _ moves => .ok (moves inv bad rule holds)

theorem Roams.walk {r : Transformer σ} (holds : inv 0 0 0 past w) :
    Next.Meets calls (rounds calls) (fun past _ w => inv t.lanes.length 0 0 past w) bad past
      (r.body (.inl (.walk t owner)) w) := by
  refine (Next.Meets.forM
    (fun lanes past w => ∃ k, k ≤ t.lanes.length ∧ (t.lanes.drop k).zipIdx k = lanes ∧ inv k 0 0 past w)
    (fun lane rest past w => ?_) t.lanes.zipIdx ⟨0, Nat.zero_le _, rfl, holds⟩).weaken ?_
  · rintro ⟨k, -, left, holds⟩
    obtain ⟨lane, rfl, here, rest⟩ := Node.of_zipIdx_cons left
    refine (rule.walkLane here holds).weaken fun past _ w holds => ?_
    exact ⟨k + 1, (List.getElem?_eq_some_iff.mp here).choose, rest, holds⟩
  · rintro past _ w ⟨k, within, left, holds⟩
    obtain rfl := Nat.le_antisymm within (Node.of_zipIdx_nil left)
    exact holds

end Roaming

structure Keeps (r : Transformer σ) (calls : Terms (World (Tally σ)) (Moment Reply) Reply) : Prop where
  enter : ∀ {h past w}, calls.pre (.enter h) past w →
    calls.Serves (rounds calls) (.enter h) past w ((r.enter h).embed w)
  unknown : ∀ {h past w e w'}, calls.pre (.dispatch h) past w → w.arena.Blames h e →
    World.classify h w = (.error e, w') →
      calls.bad (.dispatch h) past w (past ++ [.began (.dispatch h)] ++ [.ended (.dispatch h) (.error e)])
        e w'
  method : ∀ {h past w n}, calls.pre (.dispatch h) past w → w.arena.Shows h n →
    calls.Serves (rounds calls) (.dispatch h) past w ((r.method n.tag h.node).embed w)
  walk : ∀ {t owner past w}, calls.pre (.walk t owner) past w →
    ∃ inv bad, Roams calls t owner inv bad ∧
      inv 0 0 0 (past ++ [.began (.walk t owner)]) w ∧
      (∀ past' w', inv t.lanes.length 0 0 past' w' →
        calls.good (.walk t owner) past w (past' ++ [.ended (.walk t owner) (.ok ())]) () w') ∧
      (∀ past' e w', bad past' e w' →
        calls.bad (.walk t owner) past w (past' ++ [.ended (.walk t owner) (.error e)]) e w')

namespace Keeps

variable {r : Transformer σ} {calls : Terms (World (Tally σ)) (Moment Reply) Reply}
  (keeps : r.Keeps calls)

include keeps

theorem kept : Terms.Kept calls (rounds calls) r.body where
  loop _ _ _ pre := loop_meets pre
  call c past w pre := by
    cases c with
    | enter h => exact keeps.enter pre
    | dispatch h =>
      by_cases good : w.arena.Good h
      · obtain ⟨n, shown⟩ := good
        rw [body, Script.step_bind (World.classify_of_shows shown)]
        exact keeps.method pre shown
      · obtain ⟨e, w', blames, stuck⟩ := World.classify_of_not_good good
        rw [body, Script.step_bind_error stuck]
        exact .error (keeps.unknown pre blames stuck)
    | walk t owner =>
      obtain ⟨inv, bad, rule, start, good, failed⟩ := keeps.walk pre
      exact (rule.walk start).mono (fun past' _ w' holds => good past' w' holds) failed

theorem run {steps : Nat} {c : Call} {w w' : World (Tally σ)} {result : Except Fault (Reply c)}
    (pre : calls.pre c [] w) (done : r.run steps c w = some (result, w')) :
    Outcome (calls.good c [] w (r.history steps c w) · w') (calls.bad c [] w (r.history steps c w) · w')
      result :=
  keeps.kept.run pre done

end Keeps

end Transformer

end ProgramTree
