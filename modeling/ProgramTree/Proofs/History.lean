import ProgramTree.Transformer
import ProgramTree.Visitor

/-!
What a run shows from outside: the calls in the order in which they are begun and ended, with their
replies. `Machine.moments` reads them off the steps of the machine. `Machine.Yields` is the same run
call by call and without a bound on its steps, and the two agree (`Yields.run`, `Yields.run_eq`).
-/

namespace ProgramTree

/-- What one step of a run shows. -/
inductive Moment {κ : Type} (ρ : κ → Type) where
  | began (c : κ)
  | ended (c : κ) (reply : Except Fault (ρ c))

variable {ω κ ι α β : Type} {ρ : κ → Type} {τ : ι → Type} {goal : κ}

def Config.moment (config : Config ω ρ goal) : Moment ρ :=
  match config.next with
  | .finish r _ => .ended config.call r
  | .call c _ _ => .began c

/-- Goes on with `f` after any result, a fault included. -/
def Next.andThen (f : Except Fault α → ω → Next ω ρ β) : Next ω ρ α → Next ω ρ β
  | finish r w => f r w
  | call c w resume => call c w fun r w' => (resume r w').andThen f

theorem Next.andThen_finish (next : Next ω ρ α) : next.andThen .finish = next := by
  induction next with
  | finish r w => rfl
  | call c w resume ih => exact congrArg (call c w) (funext fun r => funext fun w' => ih r w')

namespace Machine

/-- What the first steps of a run show. Nothing is shown after its end. -/
def moments (body : (c : κ) → Script ω ρ (ρ c)) : Nat → Config ω ρ goal → List (Moment ρ)
  | 0, _ => []
  | steps + 1, config =>
    config.moment ::
      match step body config with
      | .inl next => moments body steps next
      | .inr _ => []

/-- What is shown when the call `c` is carried out. -/
def history (body : (c : κ) → Script ω ρ (ρ c)) (steps : Nat) (c : κ) (w : ω) : List (Moment ρ) :=
  .began c :: moments body steps ⟨body c w, .done⟩

/-- Code that comes to its end with a result, showing `past` on the way. -/
inductive Yields (body : (c : κ) → Script ω ρ (ρ c)) :
    {α : Type} → Next ω ρ α → List (Moment ρ) → Except Fault α → ω → Prop where
  | finished {α : Type} (r : Except Fault α) (w : ω) : Yields body (.finish r w) [] r w
  | called {α : Type} {c : κ} {w w₁ w₂ : ω} {resume : Except Fault (ρ c) → ω → Next ω ρ α}
      {inner outer : List (Moment ρ)} {reply : Except Fault (ρ c)} {r : Except Fault α} :
      Yields body (body c w) inner reply w₁ → Yields body (resume reply w₁) outer r w₂ →
      Yields body (.call c w resume) (.began c :: inner ++ .ended c reply :: outer) r w₂

variable {body : (c : κ) → Script ω ρ (ρ c)} {c : κ} {w w₁ w₂ : ω}

/-- The machine takes the code to its result, whatever waits for it. -/
theorem Yields.finish_andThen {next : Next ω ρ α} {past : List (Moment ρ)} {r : Except Fault α}
    (yields : Yields body next past r w) :
    ∃ taken, ∀ {goal d : κ} (f : Except Fault α → ω → Next ω ρ (ρ d)) (stack : Stack ω ρ goal d)
      (steps : Nat),
      finish body (taken + steps) ⟨next.andThen f, stack⟩ = finish body steps ⟨f r w, stack⟩ ∧
      moments body (taken + steps) ⟨next.andThen f, stack⟩ =
        past ++ moments body steps ⟨f r w, stack⟩ := by
  induction yields with
  | finished r w => exact ⟨0, fun f stack steps => by simp [Next.andThen]⟩
  | @called α c w w₁ w₂ resume inner outer reply r _ _ ihInner ihOuter =>
    obtain ⟨m, inside⟩ := ihInner
    obtain ⟨n, outside⟩ := ihOuter
    refine ⟨m + (n + 1) + 1, fun f stack steps => ?_⟩
    -- The callee runs below a new stack frame, which its reply takes off again.
    have callee := inside .finish (.push c (fun r w' => (resume r w').andThen f) stack)
      (n + steps + 1)
    rw [Next.andThen_finish] at callee
    have caller := outside f stack steps
    rw [show m + (n + 1) + 1 + steps = m + (n + steps + 1) + 1 by omega]
    constructor
    · calc
        _ = finish body (m + (n + steps + 1))
              ⟨body c w, .push c (fun r w' => (resume r w').andThen f) stack⟩ := rfl
        _ = finish body (n + steps) ⟨(resume reply w₁).andThen f, stack⟩ := callee.1
        _ = _ := caller.1
    · calc
        _ = .began c :: moments body (m + (n + steps + 1))
              ⟨body c w, .push c (fun r w' => (resume r w').andThen f) stack⟩ := rfl
        _ = .began c :: (inner ++ .ended c reply ::
              moments body (n + steps) ⟨(resume reply w₁).andThen f, stack⟩) :=
            congrArg _ callee.2
        _ = _ := by simp [caller.2]

theorem Yields.run {past : List (Moment ρ)} {r : Except Fault (ρ c)}
    (yields : Yields body (body c w) past r w₁) :
    ∃ steps, Machine.run body steps c w = some (r, w₁) ∧
      history body steps c w = .began c :: past ++ [.ended c r] := by
  obtain ⟨taken, reach⟩ := yields.finish_andThen
  have last := reach .finish (Stack.done : Stack ω ρ c c) 1
  rw [Next.andThen_finish] at last
  exact ⟨taken + 1, last.1, congrArg _ last.2⟩

theorem moments_mono {m n : Nat} (h : m ≤ n) {config : Config ω ρ goal}
    {outcome : Except Fault (ρ goal) × ω} (done : Machine.finish body m config = some outcome) :
    moments body n config = moments body m config := by
  induction m generalizing n config with
  | zero => cases done
  | succ m ih =>
    obtain ⟨n, rfl⟩ : ∃ k, n = k + 1 := ⟨n - 1, by omega⟩
    rw [Machine.finish] at done
    rw [moments, moments]
    cases taken : step body config with
    | inl next =>
      rw [taken] at done
      exact congrArg _ (ih (by omega) done)
    | inr result => rfl

theorem Yields.run_eq {past : List (Moment ρ)} {r : Except Fault (ρ c)} {steps : Nat}
    {outcome : Except Fault (ρ c) × ω} (yields : Yields body (body c w) past r w₁)
    (done : Machine.run body steps c w = some outcome) :
    outcome = (r, w₁) ∧ history body steps c w = .began c :: past ++ [.ended c r] := by
  obtain ⟨enough, run, shown⟩ := yields.run
  have same := (run_mono (Nat.le_max_left steps enough) done).symm.trans
    (run_mono (Nat.le_max_right steps enough) run)
  refine ⟨Option.some.inj same, ?_⟩
  rw [← shown]
  exact congrArg _ ((moments_mono (Nat.le_max_left steps enough) done).symm.trans
    (moments_mono (Nat.le_max_right steps enough) run))

theorem Yields.bind {next : Next ω ρ α} {f : α → Script ω ρ β} {a : α} {r : Except Fault β}
    {past later : List (Moment ρ)} (first : Yields body next past (.ok a) w₁)
    (second : Yields body (f a w₁) later r w₂) :
    Yields body (next.bind f) (past ++ later) r w₂ := by
  generalize outcome : Except.ok a = result at first
  induction first with
  | finished r' w' =>
    subst outcome
    exact second
  | called inner _ _ ih =>
    subst outcome
    simpa using Yields.called inner (ih second rfl)

theorem Yields.bind_error {next : Next ω ρ α} {f : α → Script ω ρ β} {e : Fault}
    {past : List (Moment ρ)} (first : Yields body next past (.error e) w₁) :
    Yields body (next.bind f) past (.error e) w₁ := by
  generalize outcome : Except.error e = result at first
  induction first with
  | finished r' w' =>
    subst outcome
    exact .finished _ _
  | called inner _ _ ih =>
    subst outcome
    exact .called inner (ih rfl)

theorem Yields.perform {past : List (Moment ρ)} {r : Except Fault (ρ c)}
    (yields : Yields body (body c w) past r w₁) :
    Yields body (Script.perform c w) (.began c :: past ++ [.ended c r]) r w₁ :=
  .called yields (.finished r w₁)

end Machine

theorem Next.embed_bind (next : Next ω ρ α) (f : α → Script ω ρ β) :
    (next.bind f).embed = (next.embed : Next ω (TaskReply ρ τ) α).bind fun a => (f a).embed := by
  induction next with
  | finish r w => cases r <;> rfl
  | call c w resume ih =>
    exact congrArg (Next.call (Sum.inl c) w) (funext fun r => funext fun w' => ih r w')

theorem Script.embed_bind (s : Script ω ρ α) (f : α → Script ω ρ β) :
    (s >>= f).embed = ((s.embed : Script ω (TaskReply ρ τ) α) >>= fun a => (f a).embed) :=
  funext fun w => Next.embed_bind (s w) f

/-- A moment of an engine as its handlers know it. The loops are the engine's own. -/
def Moment.visible? : Moment (TaskReply ρ τ) → Option (Moment ρ)
  | .began (.inl c) => some (.began c)
  | .ended (.inl c) r => some (.ended c r)
  | .began (.inr _) | .ended (.inr _) _ => none

def visible (past : List (Moment (TaskReply ρ τ))) : List (Moment ρ) :=
  past.filterMap Moment.visible?

def Moment.call? : Moment ρ → Option κ
  | .began c => some c
  | .ended .. => none

def calls (past : List (Moment ρ)) : List κ :=
  past.filterMap Moment.call?

def Visitor.history {σ : Type} (v : Visitor σ) (steps : Nat) (c : Call) (w : World σ) :
    List (Moment Visitor.Reply) :=
  visible (Machine.history v.body steps (.inl c) w)

def Transformer.history {σ : Type} (r : Transformer σ) (steps : Nat) (c : Call)
    (w : World (Tally σ)) : List (Moment Transformer.Reply) :=
  visible (Machine.history r.body steps (.inl c) w)

/-- A whole transformation is the run from the root, with its end in the log. -/
theorem Transformer.transform_cases {σ : Type} {r : Transformer σ} {steps : Nat} {root : NodeId}
    {w final : World (Tally σ)} {result : Except Fault (NodeId × UInt64)}
    (done : r.transform steps root w = some (result, final)) :
    ∃ reply last, r.run steps (.enter ⟨.module, root⟩) (w.note (.started .transform root)) =
        some (reply, last) ∧
      ((∃ e, reply = .error e ∧ result = .error e ∧ final = last) ∨
        ∃ newRoot, reply = .ok newRoot ∧
          result = .ok (newRoot, growth w.state.replaced last.state.replaced) ∧
          final = last.note (.transformed (growth w.state.replaced last.state.replaced)
            (newRoot != root))) := by
  unfold Transformer.transform at done
  generalize r.run steps (.enter ⟨.module, root⟩) (w.note (.started .transform root)) = run at done
  rcases run with _ | ⟨e | newRoot, last⟩
  · cases done
  · cases done
    exact ⟨_, _, rfl, .inl ⟨_, rfl, rfl, rfl⟩⟩
  · cases done
    exact ⟨_, _, rfl, .inr ⟨_, rfl, rfl, rfl⟩⟩

end ProgramTree
