import ProgramTree.Fault

/-!
Scripts: code that works on a world and may call named functions on the way. A script does not know
how a call is carried out. It hands over the world and waits for the reply, which may be a fault
that it is free to handle. Handlers of passes and the engines themselves are scripts over the same
calls; `Machine` runs them.
-/

namespace ProgramTree

/-- What a script does next: it ends with a result, or makes a call and goes on with the reply. -/
inductive Next (ω : Type) {κ : Type} (ρ : κ → Type) (α : Type) : Type where
  | finish (result : Except Fault α) (world : ω)
  | call (c : κ) (world : ω) (resume : Except Fault (ρ c) → ω → Next ω ρ α)

/-- A script over worlds `ω` with calls `κ`, where a call `c` is answered by a value of `ρ c`. -/
def Script (ω : Type) {κ : Type} (ρ : κ → Type) (α : Type) : Type :=
  ω → Next ω ρ α

variable {ω κ α β : Type} {ρ : κ → Type}

/-- Goes on with `f` after a good result; a fault is passed on. -/
def Next.bind (f : α → Script ω ρ β) : Next ω ρ α → Next ω ρ β
  | finish (.ok a) w => f a w
  | finish (.error e) w => finish (.error e) w
  | call c w resume => call c w fun r w' => (resume r w').bind f

namespace Next

@[simp] theorem bind_finish_ok (f : α → Script ω ρ β) (a : α) (w : ω) :
    (finish (.ok a) w).bind f = f a w := rfl

@[simp] theorem bind_finish_error (f : α → Script ω ρ β) (e : Fault) (w : ω) :
    (finish (.error e) w).bind f = finish (.error e) w := rfl

@[simp] theorem bind_call (f : α → Script ω ρ β) (c : κ) (w : ω)
    (resume : Except Fault (ρ c) → ω → Next ω ρ α) :
    (call c w resume).bind f = call c w fun r w' => (resume r w').bind f := rfl

theorem bind_pure (next : Next ω ρ α) : next.bind (fun a w => finish (.ok a) w) = next := by
  induction next with
  | finish r w => cases r <;> rfl
  | call c w resume ih => exact congrArg (call c w) (funext fun r => funext fun w' => ih r w')

theorem bind_assoc {γ : Type} (next : Next ω ρ α) (f : α → Script ω ρ β) (g : β → Script ω ρ γ) :
    (next.bind f).bind g = next.bind fun a w => (f a w).bind g := by
  induction next with
  | finish r w => cases r <;> rfl
  | call c w resume ih => exact congrArg (call c w) (funext fun r => funext fun w' => ih r w')

end Next

namespace Script

instance : Monad (Script ω ρ) where
  pure a := fun w => .finish (.ok a) w
  bind s f := fun w => (s w).bind f

theorem pure_apply (a : α) (w : ω) : (pure a : Script ω ρ α) w = .finish (.ok a) w := rfl

theorem bind_apply (s : Script ω ρ α) (f : α → Script ω ρ β) (w : ω) :
    (s >>= f) w = (s w).bind f := rfl

instance : LawfulMonad (Script ω ρ) :=
  LawfulMonad.mk' _
    (fun s => funext fun w => Next.bind_pure (s w))
    (fun _ _ => rfl)
    (fun s f g => funext fun w => Next.bind_assoc (s w) f g)

def perform (c : κ) : Script ω ρ (ρ c) :=
  fun w => .call c w .finish

def fail (e : Fault) : Script ω ρ α :=
  fun w => .finish (.error e) w

def read (f : ω → Except Fault α) : Script ω ρ α :=
  fun w => .finish (f w) w

def step (f : ω → Except Fault α × ω) : Script ω ρ α :=
  fun w => match f w with
    | (r, w') => .finish r w'

def update (f : ω → ω) : Script ω ρ Unit :=
  fun w => .finish (.ok ()) (f w)

/-- Runs a script that has nothing to call. -/
def runAlone {ρ : Empty → Type} (s : Script ω ρ α) (w : ω) : Except Fault α × ω :=
  match s w with
  | .finish r w' => (r, w')

end Script

end ProgramTree
