import ProgramTree.Script
import ProgramTree.Tag

/-!
The calls that the handlers of a pass can make. An engine has tasks of its own besides, the loops
over sequences; handlers know nothing of them, and their code is embedded in that of the engine.
-/

namespace ProgramTree

inductive Call where
  /-- The entry point of the pass itself. -/
  | enter (h : Handle)
  /-- The method of the pass for the variant of the node. -/
  | dispatch (h : Handle)
  /-- The children of a node of variant `t`. -/
  | walk (t : Tag) (owner : NodeId)
  deriving DecidableEq, Repr

variable {ω κ ι α : Type} {ρ : κ → Type} {τ : ι → Type}

abbrev TaskReply (ρ : κ → Type) (τ : ι → Type) : κ ⊕ ι → Type
  | .inl c => ρ c
  | .inr l => τ l

/-- The code of a handler as code of its engine. -/
def Next.embed : Next ω ρ α → Next ω (TaskReply ρ τ) α
  | finish r w => .finish r w
  | call c w resume => .call (.inl c) w fun r w' => (resume r w').embed

def Script.embed (s : Script ω ρ α) : Script ω (TaskReply ρ τ) α :=
  fun w => (s w).embed

end ProgramTree
