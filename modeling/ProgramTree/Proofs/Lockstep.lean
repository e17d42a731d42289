import Mathlib.Data.List.Forall2
import ProgramTree.Proofs.History

/-!
Two machines that run in step. A correspondence says which worlds, calls and replies belong together.
When the bodies of corresponding calls match, so do the outcomes of the two machines after any number
of steps, and what they show on the way (`Machine.run_matches`). Neither run has to come to an end.

Engines that hold the same arena at corresponding moments find the same nodes and places in it
(`Correspondence.Shares`), whatever else their worlds hold and whichever engines they are.
-/

namespace ProgramTree

/-- Two results that are both good and related, or the same fault. -/
inductive Agree {α β : Type} (R : α → β → Prop) : Except Fault α → Except Fault β → Prop where
  | ok {a : α} {b : β} : R a b → Agree R (.ok a) (.ok b)
  | error (e : Fault) : Agree R (.error e) (.error e)

theorem Agree.refl {α : Type} {R : α → α → Prop} (reflexive : ∀ a, R a a) :
    (r : Except Fault α) → Agree R r r
  | .ok a => .ok (reflexive a)
  | .error e => .error e

theorem Agree.eq_map {α β : Type} {b : β} {r : Except Fault α} {r' : Except Fault β}
    (agree : Agree (fun _ b' => b' = b) r r') : r' = r.map fun _ => b := by
  cases agree with
  | ok same => rw [same, Except.map]
  | error e => rfl

theorem eq_map_of_rel {α β : Type} {R : α → β → Prop} {f : α → β} (only : ∀ a b, R a b → b = f a)
    {x : Option α} {y : Option β} (related : Option.Rel R x y) : y = x.map f := by
  cases related with
  | none => rfl
  | some related => exact congrArg some (only _ _ related)

structure Correspondence (ω ω' : Type) {κ κ' : Type} (ρ : κ → Type) (ρ' : κ' → Type) where
  world : ω → ω' → Prop
  call : κ → κ' → Prop
  reply : (c : κ) → (c' : κ') → ρ c → ρ' c' → Prop

variable {ω ω' κ κ' α α' β β' : Type} {ρ : κ → Type} {ρ' : κ' → Type}
  (k : Correspondence ω ω' ρ ρ')

/-- Code that makes corresponding calls as long as the replies correspond, with results in `R`. -/
inductive Next.Matches (R : α → α' → Prop) : Next ω ρ α → Next ω' ρ' α' → Prop where
  | finish {r : Except Fault α} {r' : Except Fault α'} {w : ω} {w' : ω'} :
      Agree R r r' → k.world w w' → Matches R (.finish r w) (.finish r' w')
  | call {c : κ} {c' : κ'} {w : ω} {w' : ω'} {resume : Except Fault (ρ c) → ω → Next ω ρ α}
      {resume' : Except Fault (ρ' c') → ω' → Next ω' ρ' α'} :
      k.call c c' → k.world w w' →
      (∀ r r' w w', Agree (k.reply c c') r r' → k.world w w' →
        Matches R (resume r w) (resume' r' w')) →
      Matches R (.call c w resume) (.call c' w' resume')

def Script.Matches (R : α → α' → Prop) (s : Script ω ρ α) (s' : Script ω' ρ' α') : Prop :=
  ∀ w w', k.world w w' → Next.Matches k R (s w) (s' w')

variable {k} {R : α → α' → Prop} {S : β → β' → Prop}

theorem Next.Matches.bind {next : Next ω ρ α} {next' : Next ω' ρ' α'} {f : α → Script ω ρ β}
    {f' : α' → Script ω' ρ' β'} (first : Next.Matches k R next next')
    (second : ∀ a a', R a a' → Script.Matches k S (f a) (f' a')) :
    Next.Matches k S (next.bind f) (next'.bind f') := by
  induction first with
  | finish results worlds =>
    cases results with
    | ok related => exact second _ _ related _ _ worlds
    | error e => exact .finish (.error e) worlds
  | call calls worlds _ ih => exact .call calls worlds ih

theorem Next.Matches.imp {R' : α → α' → Prop} {next : Next ω ρ α} {next' : Next ω' ρ' α'}
    (first : Next.Matches k R next next') (weaker : ∀ a a', R a a' → R' a a') :
    Next.Matches k R' next next' := by
  induction first with
  | finish results worlds =>
    cases results with
    | ok related => exact .finish (.ok (weaker _ _ related)) worlds
    | error e => exact .finish (.error e) worlds
  | call calls worlds _ ih => exact .call calls worlds ih

namespace Script.Matches

theorem pure {a : α} {a' : α'} (related : R a a') :
    Script.Matches k R (pure a : Script ω ρ α) (pure a' : Script ω' ρ' α') :=
  fun _ _ worlds => .finish (.ok related) worlds

theorem bind {s : Script ω ρ α} {s' : Script ω' ρ' α'} {f : α → Script ω ρ β}
    {f' : α' → Script ω' ρ' β'} (first : Script.Matches k R s s')
    (second : ∀ a a', R a a' → Script.Matches k S (f a) (f' a')) :
    Script.Matches k S (s >>= f) (s' >>= f') :=
  fun w w' worlds => (first w w' worlds).bind second

theorem perform {c : κ} {c' : κ'} (calls : k.call c c') :
    Script.Matches k (k.reply c c') (Script.perform c) (Script.perform c') :=
  fun _ _ worlds => .call calls worlds fun _ _ _ _ results worlds => .finish results worlds

theorem read {f : ω → Except Fault α} {f' : ω' → Except Fault α'}
    (results : ∀ w w', k.world w w' → Agree R (f w) (f' w')) :
    Script.Matches k R (Script.read f : Script ω ρ α) (Script.read f' : Script ω' ρ' α') :=
  fun w w' worlds => .finish (results w w' worlds) worlds

theorem step {f : ω → Except Fault α × ω} {f' : ω' → Except Fault α' × ω'}
    (results : ∀ w w', k.world w w' →
      Agree R (f w).1 (f' w').1 ∧ k.world (f w).2 (f' w').2) :
    Script.Matches k R (Script.step f : Script ω ρ α) (Script.step f' : Script ω' ρ' α') :=
  fun w w' worlds => .finish (results w w' worlds).1 (results w w' worlds).2

theorem forM {γ : Type} {f : γ → Script ω ρ PUnit} {f' : γ → Script ω' ρ' PUnit}
    (each : ∀ a, Script.Matches k Eq (f a) (f' a)) :
    (l : List γ) → Script.Matches k Eq (l.forM f) (l.forM f')
  | [] => pure rfl
  | a :: l => bind (each a) fun _ _ _ => forM each l

end Script.Matches

/-- Two stacks whose waiting callers go on in matching ways after corresponding replies. -/
inductive Stack.Matches (k : Correspondence ω ω' ρ ρ') {goal : κ} {goal' : κ'} :
    {c : κ} → {c' : κ'} → Stack ω ρ goal c → Stack ω' ρ' goal' c' → Prop where
  | done : Matches k .done .done
  | push {c d : κ} {c' d' : κ'} {resume : Except Fault (ρ c) → ω → Next ω ρ (ρ d)}
      {resume' : Except Fault (ρ' c') → ω' → Next ω' ρ' (ρ' d')}
      {rest : Stack ω ρ goal d} {rest' : Stack ω' ρ' goal' d'} :
      k.call d d' →
      (∀ r r' w w', Agree (k.reply c c') r r' → k.world w w' →
        Next.Matches k (k.reply d d') (resume r w) (resume' r' w')) →
      Matches k rest rest' → Matches k (.push c resume rest) (.push c' resume' rest')

structure Config.Matches (k : Correspondence ω ω' ρ ρ') {goal : κ} {goal' : κ'}
    (x : Config ω ρ goal) (x' : Config ω' ρ' goal') : Prop where
  call : k.call x.call x'.call
  next : Next.Matches k (k.reply x.call x'.call) x.next x'.next
  stack : Stack.Matches k x.stack x'.stack

inductive Moment.Matches (k : Correspondence ω ω' ρ ρ') : Moment ρ → Moment ρ' → Prop where
  | began {c : κ} {c' : κ'} : k.call c c' → Matches k (.began c) (.began c')
  | ended {c : κ} {c' : κ'} {r : Except Fault (ρ c)} {r' : Except Fault (ρ' c')} :
      k.call c c' → Agree (k.reply c c') r r' → Matches k (.ended c r) (.ended c' r')

def Correspondence.Outcome (k : Correspondence ω ω' ρ ρ') (goal : κ) (goal' : κ')
    (outcome : Except Fault (ρ goal) × ω) (outcome' : Except Fault (ρ' goal') × ω') : Prop :=
  Agree (k.reply goal goal') outcome.1 outcome'.1 ∧ k.world outcome.2 outcome'.2

namespace Machine

variable {body : (c : κ) → Script ω ρ (ρ c)} {body' : (c : κ') → Script ω' ρ' (ρ' c)}
  {goal : κ} {goal' : κ'}

theorem moment_matches {x : Config ω ρ goal} {x' : Config ω' ρ' goal'}
    (configs : Config.Matches k x x') : Moment.Matches k x.moment x'.moment := by
  obtain ⟨next, stack⟩ := x
  obtain ⟨next', stack'⟩ := x'
  have nexts : Next.Matches k _ next next' := configs.next
  cases nexts with
  | finish results _ => exact .ended configs.call results
  | call calls _ _ => exact .began calls

/-- Matching configurations take matching steps: both go on, or both are at their end. -/
theorem step_matches
    (bodies : ∀ c c', k.call c c' → Script.Matches k (k.reply c c') (body c) (body' c'))
    {x : Config ω ρ goal} {x' : Config ω' ρ' goal'} (configs : Config.Matches k x x') :
    (∃ y y', step body x = .inl y ∧ step body' x' = .inl y' ∧ Config.Matches k y y') ∨
    (∃ o o', step body x = .inr o ∧ step body' x' = .inr o' ∧ k.Outcome goal goal' o o') := by
  obtain ⟨next, stack⟩ := x
  obtain ⟨next', stack'⟩ := x'
  have nexts : Next.Matches k _ next next' := configs.next
  have pair : Stack.Matches k stack stack' := configs.stack
  cases nexts with
  | finish results worlds =>
    cases pair with
    | done => exact .inr ⟨_, _, rfl, rfl, results, worlds⟩
    | push calls resumes below =>
      exact .inl ⟨_, _, rfl, rfl, calls, resumes _ _ _ _ results worlds, below⟩
  | call calls worlds resumes =>
    exact .inl ⟨_, _, rfl, rfl, calls, bodies _ _ calls _ _ worlds,
      .push configs.call resumes pair⟩

theorem finish_matches
    (bodies : ∀ c c', k.call c c' → Script.Matches k (k.reply c c') (body c) (body' c'))
    (steps : Nat) {x : Config ω ρ goal} {x' : Config ω' ρ' goal'}
    (configs : Config.Matches k x x') :
    Option.Rel (k.Outcome goal goal') (finish body steps x) (finish body' steps x') ∧
      List.Forall₂ (Moment.Matches k) (moments body steps x) (moments body' steps x') := by
  induction steps generalizing x x' with
  | zero => exact ⟨.none, .nil⟩
  | succ steps ih =>
    have shown := moment_matches configs
    rcases step_matches bodies configs with ⟨y, y', left, right, next⟩ | ⟨o, o', left, right, ends⟩
    · simp only [finish, moments, left, right]
      exact ⟨(ih next).1, .cons shown (ih next).2⟩
    · simp only [finish, moments, left, right]
      exact ⟨.some ends, .cons shown .nil⟩

/-- Corresponding calls in corresponding worlds have corresponding runs. -/
theorem run_matches
    (bodies : ∀ c c', k.call c c' → Script.Matches k (k.reply c c') (body c) (body' c'))
    (steps : Nat) {c : κ} {c' : κ'} (calls : k.call c c') {w : ω} {w' : ω'}
    (worlds : k.world w w') :
    Option.Rel (k.Outcome c c') (run body steps c w) (run body' steps c' w') ∧
      List.Forall₂ (Moment.Matches k) (history body steps c w) (history body' steps c' w') := by
  have start : Config.Matches k (⟨body c w, .done⟩ : Config ω ρ c)
      (⟨body' c' w', .done⟩ : Config ω' ρ' c') := ⟨calls, bodies c c' calls w w' worlds, .done⟩
  obtain ⟨outcomes, shown⟩ := finish_matches bodies steps start
  exact ⟨outcomes, .cons (.began calls) shown⟩

end Machine

/-! ### The same calls with the same replies -/

section Same

variable {world : ω → ω' → Prop}

def Correspondence.same (ρ : κ → Type) (world : ω → ω' → Prop) : Correspondence ω ω' ρ ρ where
  world := world
  call := Eq
  reply _ _ a a' := HEq a a'

theorem agree_heq_iff {r r' : Except Fault α} : Agree (fun a a' => HEq a a') r r' ↔ r' = r := by
  constructor
  · rintro (same | e)
    · rw [eq_of_heq same]
    · rfl
  · rintro rfl
    exact .refl (fun _ => HEq.rfl) _

theorem Script.Matches.same_perform (c : κ) :
    Script.Matches (.same ρ world) Eq (Script.perform c) (Script.perform c) := by
  intro w w' worlds
  refine .call rfl worlds fun r r' v v' results worlds => .finish ?_ worlds
  rw [agree_heq_iff.mp results]
  exact .refl (fun _ => rfl) _

variable {body : (c : κ) → Script ω ρ (ρ c)} {body' : (c : κ) → Script ω' ρ (ρ c)}
  (bodies : ∀ c, Script.Matches (.same ρ world) Eq (body c) (body' c))

include bodies

theorem Correspondence.same_bodies (c c' : κ) (calls : (Correspondence.same ρ world).call c c') :
    Script.Matches (.same ρ world) ((Correspondence.same ρ world).reply c c') (body c) (body' c') := by
  obtain rfl : c = c' := calls
  exact fun w w' worlds => (bodies c w w' worlds).imp fun _ _ => heq_of_eq

theorem Machine.run_same (steps : Nat) (c : κ) {w : ω} {w' : ω'} (worlds : world w w') :
    Option.Rel (fun o o' => o'.1 = o.1 ∧ world o.2 o'.2) (run body steps c w) (run body' steps c w') := by
  have outcomes := (run_matches (Correspondence.same_bodies bodies) steps (c := c) rfl worlds).1
  revert outcomes
  generalize run body steps c w = o
  generalize run body' steps c w' = o'
  rintro (⟨results, worlds⟩ | _)
  · exact .some ⟨agree_heq_iff.mp results, worlds⟩
  · exact .none

end Same

/-! ### The same arena in both worlds -/

/-- Worlds that belong together hold the same arena, and still do when both have noted an event. -/
structure Correspondence.Shares {σ σ' : Type} (k : Correspondence (World σ) (World σ') ρ ρ') : Prop where
  arena {w : World σ} {w' : World σ'} : k.world w w' → w'.arena = w.arena
  note {w : World σ} {w' : World σ'} (e : Event) : k.world w w' → k.world (w.note e) (w'.note e)

namespace Correspondence.Shares

variable {σ σ' : Type} {k : Correspondence (World σ) (World σ') ρ ρ'} (shares : k.Shares)

include shares

theorem read (g : Arena → Except Fault α) :
    Script.Matches k Eq (Script.read fun w => g w.arena) (Script.read fun w => g w.arena) := by
  refine .read fun w w' worlds => ?_
  rw [shares.arena worlds]
  exact .refl (fun _ => rfl) _

/-- Both engines find the same place, and go on with it. -/
theorem place {f : Option (Option NodeId) → Script (World σ) ρ β}
    {f' : Option (Option NodeId) → Script (World σ') ρ' β'} (t : Tag) (owner : NodeId) (lane i : Nat)
    (rest : ∀ place, Script.Matches k S (f place) (f' place)) :
    Script.Matches k S (Script.read (World.place? t owner lane i) >>= f)
      (Script.read (World.place? t owner lane i) >>= f') := by
  refine .bind (shares.read fun a => (a.get t owner).map fun record => record.place? t.fields lane i) ?_
  rintro place _ rfl
  exact rest place

/-- Both engines find the same variant, or stop with the same fault. -/
theorem dispatch {f : Tag → Script (World σ) ρ β} {f' : Tag → Script (World σ') ρ' β'} (h : Handle)
    (methods : ∀ t, Script.Matches k S (f t) (f' t)) :
    Script.Matches k S (Script.step (World.classify h) >>= f) (Script.step (World.classify h) >>= f') := by
  have found : Script.Matches k Eq (Script.step (World.classify h)) (Script.step (World.classify h)) := by
    refine .step fun w w' worlds => ?_
    unfold World.classify
    rw [shares.arena worlds]
    cases w.arena.node h.node with
    | error e => exact ⟨.error e, worlds⟩
    | ok n =>
      dsimp only
      split
      · exact ⟨.ok rfl, worlds⟩
      · exact ⟨.error _, shares.note _ worlds⟩
  refine .bind found ?_
  rintro t _ rfl
  exact methods t

end Correspondence.Shares

end ProgramTree
