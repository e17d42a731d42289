import ProgramTree.Proofs.Conduct
import ProgramTree.Proofs.Nesting

/-!
Where faults come from. Code raises a fault if it ends with it and none of its calls has replied with it;
else it has passed the fault on. So a fault belongs to the code that raised it, also when another piece of
code raises a fault of the same value. Every fault with which a run ends can be traced to the call that has
raised it, through calls that have passed it on (`Machine.exists_source`).

When the handlers behave, walks raise nothing: all their faults are passed on from the children
(`Visitor.Behaves.walk_not_raises`, `Transformer.Behaves.walk_not_raises`).
-/

namespace ProgramTree

variable {ω κ ι α β : Type} {ρ : κ → Type} {τ : ι → Type}

namespace Machine

variable (body : (task : κ ⊕ ι) → Script ω (TaskReply ρ τ) (TaskReply ρ τ task)) (e : Fault)

/-- The code ends with the fault, and no call that it makes on the way replies with it. Loops are part of
the code that makes them. -/
inductive Raises {α : Type} : Next ω (TaskReply ρ τ) α → Prop where
  | here (w : ω) : Raises (.finish (.error e) w)
  | call {c : κ} {w w₁ : ω} {resume : Except Fault (ρ c) → ω → Next ω (TaskReply ρ τ) α}
      {inner : List (Moment (TaskReply ρ τ))} {reply : Except Fault (ρ c)} :
      Yields body (body (.inl c) w) inner reply w₁ → reply ≠ .error e → Raises (resume reply w₁) →
      Raises (.call (.inl c) w resume)
  | loop {l : ι} {w : ω} {resume : Except Fault (τ l) → ω → Next ω (TaskReply ρ τ) α} :
      Raises ((body (.inr l) w).andThen resume) → Raises (.call (.inr l) w resume)

variable {e}

/-- The code itself makes the call `c` in the world `u`: no other call is in progress then, only loops. -/
def Calls (next : Next ω (TaskReply ρ τ) α) (c : κ) (u : ω) : Prop :=
  ∃ past waiting, Arrives body next past waiting (.inl c) u ∧ waiting.filterMap Sum.getLeft? = []

variable (e)

def Hears (x y : κ × ω) : Prop :=
  Calls body (body (.inl x.1) x.2) y.1 y.2 ∧
    ∃ past v, Yields body (body (.inl y.1) y.2) past (.error e) v

/-- The fault with which the call `c`, made in the world `w`, fails has come up from the call `d`, made in
the world `u`: all calls in between have failed with it, each after the one that it has made. -/
def Traces (c : κ) (w : ω) (d : κ) (u : ω) : Prop :=
  Relation.ReflTransGen (Hears body e) (c, w) (d, u)

variable {body e} {next : Next ω (TaskReply ρ τ) α} {past : List (Moment (TaskReply ρ τ))} {v w : ω}

/-- A fault that is raised after some code has come to its end is raised by that code and what follows it,
or one of the calls that the code itself has made has failed with it. -/
theorem Raises.of_yields {r : Except Fault α} (yields : Yields body next past r v) : ∀ {β : Type}
    (f : Except Fault α → ω → Next ω (TaskReply ρ τ) β), Raises body e (f r v) →
    Raises body e (next.andThen f) ∨ ∃ c u inner u', Calls body next c u ∧
      Yields body (body (.inl c) u) inner (.error e) u' ∧ inner.length < past.length := by
  induction yields with
  | finished r w => exact fun f raises => .inl raises
  | @called α task w w₁ w₂ resume inner outer reply r yields _ ihInner ihOuter =>
    intro β f raises
    have size : (.began task :: inner ++ .ended task reply :: outer :
        List (Moment (TaskReply ρ τ))).length = inner.length + outer.length + 2 := by
      simp only [List.length_append, List.length_cons]
      omega
    rw [size]
    rcases ihOuter f raises with raises | ⟨c, u, part, u', ⟨_, _, arrives, alone⟩, fails, less⟩
    · cases task with
      | inl c =>
        by_cases heard : reply = .error e
        · subst heard
          exact .inr ⟨c, w, inner, w₁, ⟨_, _, .here, rfl⟩, yields, by omega⟩
        · exact .inl (.call yields heard raises)
      | inr l =>
        rcases ihInner (fun r w' => (resume r w').andThen f) raises with
          raises | ⟨c, u, part, u', ⟨_, _, arrives, alone⟩, fails, less⟩
        · exact .inl (.loop raises)
        · exact .inr ⟨c, u, part, u', ⟨_, _, .inside arrives, by simp [alone]⟩, fails, by omega⟩
    · exact .inr ⟨c, u, part, u', ⟨_, _, .later yields arrives, alone⟩, fails, by omega⟩

/-- Every fault of a call can be traced to a call that has raised it. -/
theorem exists_source {c : κ} (fails : Yields body (body (.inl c) w) past (.error e) v) :
    ∃ d u, Traces body e c w d u ∧ Raises body e (body (.inl d) u) := by
  induction size : past.length using Nat.strong_induction_on generalizing c w past v with
  | _ n ih =>
    rcases Raises.of_yields fails .finish (.here v) with raises | ⟨c', w', inner, v', calls, fails', less⟩
    · rw [Next.andThen_finish] at raises
      exact ⟨c, w, .refl, raises⟩
    · obtain ⟨d, u, traces, raises⟩ := ih inner.length (size ▸ less) fails' rfl
      exact ⟨d, u, .head ⟨calls, inner, v', fails'⟩ traces, raises⟩

theorem Raises.not_call {c : κ} {resume : Except Fault (ρ c) → ω → Next ω (TaskReply ρ τ) α}
    (passes : ∀ reply u, Raises body e (resume reply u) → reply = .error e) :
    ¬ Raises body e (.call (.inl c) w resume) := by
  rintro (_ | ⟨-, other, raises⟩)
  exact other (passes _ _ raises)

end Machine

section Terms

variable {calls : Terms ω (Moment ρ) ρ} {loops : Terms ω (Moment ρ) τ}
  {body : (task : κ ⊕ ι) → Script ω (TaskReply ρ τ) (TaskReply ρ τ task)}
  {good : List (Moment ρ) → α → ω → Prop} {bad : List (Moment ρ) → Fault → ω → Prop}
  {next : Next ω (TaskReply ρ τ) α} {past : List (Moment ρ)}

theorem Terms.Kept.of_arrives (kept : Terms.Kept calls loops body)
    {shown : List (Moment (TaskReply ρ τ))} {waiting : List (κ ⊕ ι)} {task : κ ⊕ ι} {u : ω}
    (arrives : Machine.Arrives body next shown waiting task u)
    (meets : Next.Meets calls loops good bad past next) :
    ∀ d, task = .inl d → ∃ past', calls.pre d past' u := by
  induction arrives generalizing past bad with
  | here =>
    rintro d rfl
    cases meets with
    | call pre _ _ => exact ⟨past, pre⟩
  | @inside _ task _ w _ _ _ _ _ ih =>
    cases meets with
    | @call _ c _ _ pre _ _ => exact ih (kept.call c past w pre)
    | @loop _ l _ _ pre _ _ => exact ih (kept.loop l past w pre)
  | @later _ task _ w w₁ _ _ _ _ _ reply yields _ ih =>
    cases meets with
    | @call _ c _ _ pre goods bads =>
      have inside := kept.of_yields yields (kept.call c past w pre)
      cases reply with
      | ok a => exact ih (goods _ a w₁ inside)
      | error e => exact ih (bads _ e w₁ inside)
    | @loop _ l _ _ pre goods bads =>
      have inside := kept.of_yields yields (kept.loop l past w pre)
      cases reply with
      | ok a => exact ih (goods _ a w₁ inside)
      | error e => exact ih (bads _ e w₁ inside)

namespace Next.Meets

theorem since {before past' : List (Moment ρ)} (longer : before <+: past)
    (meets : Next.Meets calls loops (fun past' a w => past <+: past' ∧ good past' a w)
      (fun past' e w => past <+: past' ∧ bad past' e w) past' next) :
    Next.Meets calls loops (fun past' a w => before <+: past' ∧ good past' a w)
      (fun past' e w => before <+: past' ∧ bad past' e w) past' next :=
  meets.mono (fun _ _ _ holds => ⟨longer.trans holds.1, holds.2⟩)
    (fun _ _ _ holds => ⟨longer.trans holds.1, holds.2⟩)

theorem onward (meets : Next.Meets calls loops good bad past next) :
    Next.Meets calls loops (fun past' a w => past <+: past' ∧ good past' a w)
      (fun past' e w => past <+: past' ∧ bad past' e w) past next := by
  induction meets with
  | ok holds => exact .ok ⟨List.prefix_rfl, holds⟩
  | error holds => exact .error ⟨List.prefix_rfl, holds⟩
  | @call past c w resume pre _ _ ihGood ihBad =>
    have longer (inner : List (Moment ρ)) (r : Except Fault (ρ c)) :
        past <+: past ++ [.began c] ++ inner ++ [.ended c r] :=
      ⟨[.began c] ++ inner ++ [.ended c r], by simp only [List.append_assoc]⟩
    exact .call pre (fun inner a w holds => (ihGood inner a w holds).since (longer inner _))
      (fun inner e w holds => (ihBad inner e w holds).since (longer inner _))
  | loop pre _ _ ihGood ihBad =>
    exact .loop pre (fun inner a w holds => (ihGood inner a w holds).since (List.prefix_append _ _))
      (fun inner e w holds => (ihBad inner e w holds).since (List.prefix_append _ _))

theorem andThen {f : Except Fault α → ω → Next ω (TaskReply ρ τ) β}
    {good' : List (Moment ρ) → β → ω → Prop} {bad' : List (Moment ρ) → Fault → ω → Prop}
    (first : Next.Meets calls loops good bad past next)
    (goods : ∀ past a w, good past a w → Next.Meets calls loops good' bad' past (f (.ok a) w))
    (bads : ∀ past e w, bad past e w → Next.Meets calls loops good' bad' past (f (.error e) w)) :
    Next.Meets calls loops good' bad' past (next.andThen f) := by
  induction first with
  | ok holds => exact goods _ _ _ holds
  | error holds => exact bads _ _ _ holds
  | call pre _ _ ihGood ihBad => exact .call pre ihGood ihBad
  | loop pre _ _ ihGood ihBad => exact .loop pre ihGood ihBad

end Next.Meets

end Terms

/-- Code that would not end with the fault if its calls told of other faults only does not raise it. -/
theorem Manners.not_raises {s α ι : Type} {ρ : Call → Type} {τ : ι → Type} {m : Manners s ρ} {e : Fault}
    {body : (task : Call ⊕ ι) → Script (World s) (TaskReply ρ τ) (TaskReply ρ τ task)}
    {loops loops' : Terms (World s) (Moment ρ) τ} {good : List (Moment ρ) → α → World s → Prop}
    {bad : List (Moment ρ) → Fault → World s → Prop} {next : Next (World s) (TaskReply ρ τ) α}
    {past : List (Moment ρ)} (kept : Terms.Kept (m.terms fun _ => True) loops body)
    (rounds : ∀ l past w, loops'.pre l past w → Next.Meets (m.terms (· ≠ e)) loops'
      (loops'.good l past w) (loops'.bad l past w) past (body (.inr l) w))
    (meets : Next.Meets (m.terms (· ≠ e)) loops' good bad past next) (never : ∀ past w, ¬ bad past e w) :
    ¬ Machine.Raises body e next := by
  intro raises
  induction raises generalizing past bad with
  | here w =>
    cases meets with
    | error holds => exact never _ _ holds
  | @call c w w₁ resume inner reply yields other _ ih =>
    cases meets with
    | call pre goods bads =>
      have inside := kept.of_yields yields (kept.call c past w pre)
      cases reply with
      | ok a => exact ih (goods (visible inner) a w₁ inside) never
      | error e' =>
        have told : e' ≠ e := fun same => other (congrArg Except.error same)
        exact ih (bads (visible inner) e' w₁ ⟨inside.1, inside.2.1, inside.2.2.1, told⟩) never
  | @loop l w resume _ ih =>
    cases meets with
    | loop pre goods bads =>
      refine ih ((rounds l past w pre).onward.andThen ?_ ?_) never
      · rintro _ a w' ⟨⟨inner, rfl⟩, holds⟩
        exact goods inner a w' holds
      · rintro _ e' w' ⟨⟨inner, rfl⟩, holds⟩
        exact bads inner e' w' holds

theorem Machine.Raises.dispatch {s : Type} {e : Fault}
    {body : (task : κ ⊕ ι) → Script (World s) (TaskReply ρ τ) (TaskReply ρ τ task)} {h : Handle}
    {method : Tag → Script (World s) (TaskReply ρ τ) α} {w : World s}
    (raises : Raises body e ((Script.step (World.classify h) >>= method) w)) :
    (∃ n, w.arena.Shows h n ∧ Raises body e (method n.tag w)) ∨ w.arena.Blames h e := by
  by_cases good : w.arena.Good h
  · obtain ⟨n, shown⟩ := good
    rw [Script.step_bind (World.classify_of_shows shown)] at raises
    exact .inl ⟨n, shown, raises⟩
  · obtain ⟨e', w', blames, stuck⟩ := World.classify_of_not_good good
    rw [Script.step_bind_error stuck] at raises
    cases raises
    exact .inr blames

section Law

variable {s ι : Type} {ρ : Call → Type} {τ : ι → Type}
  (body : (task : Call ⊕ ι) → Script (World s) (TaskReply ρ τ) (TaskReply ρ τ task))
  (raised : Fault → Call → World s → Prop) (start : Call) (w : World s)

def Machine.Makes (c : Call) (u : World s) : Prop :=
  ∃ past waiting, Arrives body (Script.perform (Sum.inl start) w) past waiting (.inl c) u

/-- Who raises the faults of a run, where `raised` tells what handlers raise. -/
structure FaultLaw : Prop where
  /-- A call raises what its handler raises, or it is the dispatch of a bad handle. Walks have no handler
  and so raise nothing, which they would if an owner were lost. This holds also of faults that are caught
  later and of runs that never end. -/
  origin : ∀ {c u e}, Machine.Makes body start w c u → Machine.Raises body e (body (.inl c) u) →
    raised e c u ∨ ∃ h, c = .dispatch h ∧ u.arena.Blames h e
  mismatch : ∀ {steps id expected found w'},
    Machine.run body steps (.inl start) w = some (.error (.variantMismatch id expected found), w') →
      ∃ c u, Machine.Traces body (.variantMismatch id expected found) start w c u ∧
        raised (.variantMismatch id expected found) c u
  dangling : ∀ {steps id size w'},
    Machine.run body steps (.inl start) w = some (.error (.danglingHandle id size), w') →
      ∃ c u, Machine.Traces body (.danglingHandle id size) start w c u ∧
        (raised (.danglingHandle id size) c u ∨
          ∃ h, c = .dispatch h ∧ h.node = id ∧ u.arena.size = size ∧ size ≤ id.index)

variable {body raised start w}

theorem Machine.Traces.makes {e : Fault} {c : Call} {u : World s} (traces : Traces body e start w c u) :
    Makes body start w c u := by
  unfold Traces at traces
  generalize target : (c, u) = y at traces
  induction traces generalizing c u with
  | refl =>
    cases target
    exact ⟨_, _, .here⟩
  | @tail x _ _ hears ih =>
    cases target
    obtain ⟨_, _, arrives⟩ := ih rfl
    obtain ⟨⟨_, _, onward, -⟩, -⟩ := hears
    exact ⟨_, _, arrives.trans onward⟩

theorem Terms.Kept.of_makes {calls : Terms (World s) (Moment ρ) ρ} {loops : Terms (World s) (Moment ρ) τ}
    (kept : Terms.Kept calls loops body) (pre : calls.pre start [] w) {c : Call} {u : World s}
    (makes : Machine.Makes body start w c u) : ∃ past, calls.pre c past u := by
  obtain ⟨_, _, arrives⟩ := makes
  exact kept.of_arrives arrives (Next.Meets.perform pre) c rfl

theorem FaultLaw.of_origin
    (origin : ∀ {c u e}, Machine.Makes body start w c u → Machine.Raises body e (body (.inl c) u) →
      raised e c u ∨ ∃ h, c = .dispatch h ∧ u.arena.Blames h e) : FaultLaw body raised start w := by
  have source {steps e w'} (done : Machine.run body steps (.inl start) w = some (.error e, w')) :
      ∃ c u, Machine.Traces body e start w c u ∧
        (raised e c u ∨ ∃ h, c = .dispatch h ∧ u.arena.Blames h e) := by
    obtain ⟨_, fails⟩ := Machine.yields_of_run done
    obtain ⟨c, u, traces, raises⟩ := Machine.exists_source fails
    exact ⟨c, u, traces, origin traces.makes raises⟩
  refine ⟨origin, fun done => ?_, fun done => ?_⟩
  · obtain ⟨c, u, traces, handler | ⟨h, -, blames⟩⟩ := source done
    · exact ⟨c, u, traces, handler⟩
    · cases blames
  · obtain ⟨c, u, traces, handler | ⟨h, rfl, blames⟩⟩ := source done
    · exact ⟨c, u, traces, .inl handler⟩
    · cases blames with
      | dangling beyond => exact ⟨_, u, traces, .inr ⟨h, rfl, rfl, rfl, beyond⟩⟩

end Law

namespace Visitor

variable {σ : Type} {v : Visitor σ} {m : Manners σ Reply} {e : Fault} {w : World σ}

/-- The handler for the call, begun in this world, raises the fault. Walks have no handler. -/
def Raises (v : Visitor σ) (e : Fault) : Call → World σ → Prop
  | .enter h, w => Machine.Raises v.body e ((v.enter h).embed w)
  | .dispatch h, w => ∃ n, w.arena.Shows h n ∧ Machine.Raises v.body e ((v.method n.tag h.node).embed w)
  | .walk .., _ => False

theorem Behaves.walk_not_raises (behaves : v.Behaves m) (suits : m.Suits) {t : Tag} {owner : NodeId}
    (inv : m.inv w.arena w.state) (allowed : (Call.walk t owner).Allowed w.arena) :
    ¬ Machine.Raises v.body e (v.body (.inl (.walk t owner)) w) := by
  have walks : Next.Meets _ (rounds v.policy _) _ _ [] (v.body (.inl (.walk t owner)) w) :=
    (Behaves.roams suits v.policy (· ≠ e) allowed).walk ⟨.refl, inv, trivial⟩
  refine Manners.not_raises (behaves.keeps suits).kept (fun _ _ _ pre => loop_meets pre) walks ?_
  exact fun _ _ holds => holds.2.2.2 rfl

theorem Behaves.origin (behaves : v.Behaves m) (suits : m.Suits) {c : Call}
    (inv : m.inv w.arena w.state) (allowed : c.Allowed w.arena)
    (raises : Machine.Raises v.body e (v.body (.inl c) w)) :
    v.Raises e c w ∨ ∃ h, c = .dispatch h ∧ w.arena.Blames h e := by
  cases c with
  | enter h => exact .inl raises
  | walk t owner => exact absurd raises (behaves.walk_not_raises suits inv allowed)
  | dispatch h => exact raises.dispatch.imp id fun blames => ⟨h, rfl, blames⟩

theorem Behaves.faultLaw (behaves : v.Behaves m) (suits : m.Suits) {start : Call}
    (inv : m.inv w.arena w.state) (allowed : start.Allowed w.arena) :
    FaultLaw v.body v.Raises start w := by
  refine .of_origin fun makes raises => ?_
  obtain ⟨_, here, fits⟩ := (behaves.keeps suits).kept.of_makes ⟨inv, allowed⟩ makes
  exact behaves.origin suits here fits raises

end Visitor

namespace Transformer

variable {σ : Type} {r : Transformer σ} {m : Manners (Tally σ) Reply} {e : Fault} {w : World (Tally σ)}

def Raises (r : Transformer σ) (e : Fault) : Call → World (Tally σ) → Prop
  | .enter h, w => Machine.Raises r.body e ((r.enter h).embed w)
  | .dispatch h, w => ∃ n, w.arena.Shows h n ∧ Machine.Raises r.body e ((r.method n.tag h.node).embed w)
  | .walk .., _ => False

theorem Behaves.walk_not_raises (behaves : r.Behaves m) (suits : Suits m) {t : Tag} {owner : NodeId}
    (inv : m.inv w.arena w.state) (allowed : (Call.walk t owner).Allowed w.arena) :
    ¬ Machine.Raises r.body e (r.body (.inl (.walk t owner)) w) := by
  have walks : Next.Meets _ (rounds _) _ _ [] (r.body (.inl (.walk t owner)) w) :=
    (Behaves.roams suits (· ≠ e) allowed).walk ⟨.refl, inv⟩
  refine Manners.not_raises (behaves.keeps suits).kept (fun _ _ _ pre => loop_meets pre) walks ?_
  exact fun _ _ holds => holds.2.2.2 rfl

theorem Behaves.origin (behaves : r.Behaves m) (suits : Suits m) {c : Call}
    (inv : m.inv w.arena w.state) (allowed : c.Allowed w.arena)
    (raises : Machine.Raises r.body e (r.body (.inl c) w)) :
    r.Raises e c w ∨ ∃ h, c = .dispatch h ∧ w.arena.Blames h e := by
  cases c with
  | enter h => exact .inl raises
  | walk t owner => exact absurd raises (behaves.walk_not_raises suits inv allowed)
  | dispatch h => exact raises.dispatch.imp id fun blames => ⟨h, rfl, blames⟩

theorem Behaves.faultLaw (behaves : r.Behaves m) (suits : Suits m) {start : Call}
    (inv : m.inv w.arena w.state) (allowed : start.Allowed w.arena) :
    FaultLaw r.body r.Raises start w := by
  refine .of_origin fun makes raises => ?_
  obtain ⟨_, here, fits⟩ := (behaves.keeps suits).kept.of_makes ⟨inv, allowed⟩ makes
  exact behaves.origin suits here fits raises

end Transformer

end ProgramTree
