import ProgramTree.Transformer

/-!
Repeated transformation. Rounds of fresh passes run over the tree until one of them overwrites no
place and keeps the root, or until the rounds are used up. The counts of the rounds are added up as
64-bit words. The state `σ` outlives the rounds, and the maker of passes may use it as it likes.
-/

namespace ProgramTree

/-- How a repeated transformation ended: the last round is counted, though it changed nothing. -/
structure FixedPoint where
  root : NodeId
  rounds : Nat
  total : UInt64
  deriving DecidableEq, Repr

structure Pass (σ : Type) where
  transformer : Transformer σ
  start : Tally σ

namespace FixedPoint

variable {σ : Type}

def round (steps : Nat) (makePass : σ → Pass σ) (root : NodeId) (w : World σ) :
    Option (Except Fault (NodeId × UInt64) × World σ) :=
  let pass := makePass w.state
  (pass.transformer.transform steps root ⟨w.arena, w.log, pass.start⟩).map fun (r, w') =>
    (r, ⟨w'.arena, w'.log, w'.state.own⟩)

/-- The rounds that are left after `done` rounds, which overwrote `total` places. -/
def iterate (steps : Nat) (makePass : σ → Pass σ) :
    (left done : Nat) → (total : UInt64) → NodeId → World σ →
      Option (Except Fault FixedPoint × World σ)
  | 0, done, _, _, w => some (.error (.noFixedPoint done), w)
  | left + 1, done, total, root, w =>
    match round steps makePass root w with
    | none => none
    | some (.error e, w) => some (.error e, w)
    | some (.ok (newRoot, replaced), w) =>
      if replaced = 0 ∧ newRoot = root then
        some (.ok ⟨newRoot, done + 1, total + replaced⟩,
          w.note (.settled (done + 1) (total + replaced)))
      else
        iterate steps makePass left (done + 1) (total + replaced) newRoot w

end FixedPoint

/-- Transforms a tree until a round changes nothing, in at most `limit` rounds. -/
def settle {σ : Type} (steps limit : Nat) (makePass : σ → Pass σ) (root : NodeId) (w : World σ) :
    Option (Except Fault FixedPoint × World σ) :=
  FixedPoint.iterate steps makePass limit 0 0 root (w.note (.started .settle root))

end ProgramTree
