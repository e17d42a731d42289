import ProgramTree.Script

/-!
Running scripts. Each call is carried out by a script of its own, its body. The machine keeps the
scripts that wait for a reply on an explicit stack, so the depth of calls is bounded by memory only.
Nothing makes the calls come to an end; a run is therefore given a number of steps and has no
outcome when they are used up.
-/

namespace ProgramTree

/-- The calls in progress while `c` is carried out, innermost first, and what each of their callers
does with the reply. The reply to the outermost call, `goal`, is the outcome of the run. -/
inductive Stack (ω : Type) {κ : Type} (ρ : κ → Type) (goal : κ) : κ → Type where
  | done : Stack ω ρ goal goal
  | push {d : κ} (c : κ) (resume : Except Fault (ρ c) → ω → Next ω ρ (ρ d))
      (rest : Stack ω ρ goal d) : Stack ω ρ goal c

/-- A run between two steps: what the innermost call has left to do, and the calls around it. -/
structure Config (ω : Type) {κ : Type} (ρ : κ → Type) (goal : κ) where
  {call : κ}
  next : Next ω ρ (ρ call)
  stack : Stack ω ρ goal call

namespace Machine

variable {ω κ : Type} {ρ : κ → Type} {goal : κ}

/-- One step: a call is begun, or a reply is given, which ends the run if nobody waits for it. -/
def step (body : (c : κ) → Script ω ρ (ρ c)) :
    Config ω ρ goal → Config ω ρ goal ⊕ (Except Fault (ρ goal) × ω)
  | ⟨.finish r w, .done⟩ => .inr (r, w)
  | ⟨.finish r w, .push _ resume rest⟩ => .inl ⟨resume r w, rest⟩
  | ⟨.call c w resume, stack⟩ => .inl ⟨body c w, .push c resume stack⟩

def finish (body : (c : κ) → Script ω ρ (ρ c)) :
    Nat → Config ω ρ goal → Option (Except Fault (ρ goal) × ω)
  | 0, _ => none
  | steps + 1, config =>
    match step body config with
    | .inl config => finish body steps config
    | .inr outcome => some outcome

def run (body : (c : κ) → Script ω ρ (ρ c)) (steps : Nat) (c : κ) (w : ω) :
    Option (Except Fault (ρ c) × ω) :=
  finish body steps ⟨body c w, .done⟩

variable {body : (c : κ) → Script ω ρ (ρ c)}

theorem finish_mono {m n : Nat} (h : m ≤ n) {config : Config ω ρ goal}
    {outcome : Except Fault (ρ goal) × ω} (done : finish body m config = some outcome) :
    finish body n config = some outcome := by
  induction m generalizing n config with
  | zero => cases done
  | succ m ih =>
    obtain ⟨n, rfl⟩ : ∃ k, n = k + 1 := ⟨n - 1, by omega⟩
    rw [finish] at done ⊢
    cases taken : step body config with
    | inl next =>
      rw [taken] at done
      exact ih (by omega) done
    | inr result =>
      rw [taken] at done
      exact done

theorem run_mono {m n : Nat} (h : m ≤ n) {c : κ} {w : ω} {outcome : Except Fault (ρ c) × ω}
    (done : run body m c w = some outcome) : run body n c w = some outcome :=
  finish_mono h done

end Machine

end ProgramTree
