import Mathlib.Data.UInt
import ProgramTree.FixedPoint
import ProgramTree.Proofs.Parallel

/-!
The rounds of a repeated transformation. `FixedPoint.Rounds` strings rounds together as long as each of
them changes something, with no limit in sight. A repeated transformation follows them until a round
settles, fails or has no end, or until its rounds are used up; so its outcome depends on the limit in no
other way (`settle_follows_rounds`). A maker of passes that counts its calls in the state finds as many
as there were rounds.
-/

namespace ProgramTree

namespace FixedPoint

variable {σ : Type}

/-- Rounds that each changed something, from `root` and `w` on: what they reported, and the root and the
world that they left. -/
inductive Rounds (steps : Nat) (makePass : σ → Pass σ) (root : NodeId) (w : World σ) :
    List UInt64 → NodeId → World σ → Prop where
  | start : Rounds steps makePass root w [] root w
  | next {reports : List UInt64} {root' newRoot : NodeId} {w' w'' : World σ} {replaced : UInt64} :
      Rounds steps makePass root w reports root' w' →
      round steps makePass root' w' = some (.ok (newRoot, replaced), w'') →
      ¬(replaced = 0 ∧ newRoot = root') →
      Rounds steps makePass root w (reports ++ [replaced]) newRoot w''

/-- No further round changes anything: the next one has no end, fails or settles. -/
def Stops (steps : Nat) (makePass : σ → Pass σ) (root : NodeId) (w : World σ) : Prop :=
  round steps makePass root w = none ∨
    (∃ e w', round steps makePass root w = some (.error e, w')) ∨
    ∃ w', round steps makePass root w = some (.ok (root, 0), w')

variable {steps limit : Nat} {makePass : σ → Pass σ} {root root' root'' : NodeId}
  {w w' w'' : World σ} {reports reports' : List UInt64}

namespace Rounds

/-- The driver comes past every root and world that rounds lead to. -/
theorem iterate_eq (rounds : Rounds steps makePass root w reports root' w') (left : Nat) :
    iterate steps makePass (reports.length + left) 0 0 root w =
      iterate steps makePass left reports.length reports.sum root' w' := by
  induction rounds generalizing left with
  | start => rw [List.length_nil, Nat.zero_add, List.sum_nil]
  | @next reports root' newRoot w' w'' replaced _ round changed ih =>
    rw [List.length_append, List.length_singleton, List.sum_append, List.sum_singleton,
      Nat.add_assoc, Nat.add_comm 1, ih, iterate, round]
    simp only [if_neg changed]

theorem unique (rounds : Rounds steps makePass root w reports root' w')
    (rounds' : Rounds steps makePass root w reports' root'' w'')
    (same : reports.length = reports'.length) : reports = reports' ∧ root' = root'' ∧ w' = w'' := by
  induction rounds generalizing reports' root'' w'' with
  | start =>
    cases rounds' with
    | start => exact ⟨rfl, rfl, rfl⟩
    | next => simp at same
  | next _ round _ ih =>
    cases rounds' with
    | start => simp at same
    | next rounds' round' _ =>
      obtain ⟨rfl, rfl, rfl⟩ := ih rounds' (by simpa using same)
      cases round.symm.trans round'
      exact ⟨rfl, rfl, rfl⟩

theorem exists_of_le (rounds : Rounds steps makePass root w reports root' w') {k : Nat}
    (le : k ≤ reports.length) :
    ∃ first root'' w'', Rounds steps makePass root w first root'' w'' ∧ first.length = k := by
  induction rounds with
  | start => exact ⟨[], root, w, .start, (Nat.le_zero.mp le).symm⟩
  | @next reports root' newRoot w' w'' replaced before round changed ih =>
    by_cases all : k = reports.length + 1
    · exact ⟨_, _, _, .next before round changed, by simp [all]⟩
    · rw [List.length_append, List.length_singleton] at le
      exact ih (by omega)

theorem length_le_of_stops (rounds : Rounds steps makePass root w reports root' w')
    (stops : Stops steps makePass root' w')
    (rounds' : Rounds steps makePass root w reports' root'' w'') :
    reports'.length ≤ reports.length := by
  by_contra longer
  obtain ⟨first, _, _, there, length⟩ :=
    rounds'.exists_of_le (k := reports.length + 1) (by omega)
  cases there with
  | start => simp at length
  | next before round changed =>
    obtain ⟨-, rfl, rfl⟩ := rounds.unique before (by simpa using length.symm)
    rcases stops with none | ⟨e, w', failed⟩ | ⟨w', settled⟩
    · cases none.symm.trans round
    · cases failed.symm.trans round
    · cases settled.symm.trans round
      exact changed ⟨rfl, rfl⟩

end Rounds

/-- There are as many rounds as wanted, unless they stop before. -/
theorem exists_rounds (steps : Nat) (makePass : σ → Pass σ) (root : NodeId) (w : World σ)
    (limit : Nat) :
    ∃ reports root' w', Rounds steps makePass root w reports root' w' ∧
      (reports.length = limit ∨ reports.length < limit ∧ Stops steps makePass root' w') := by
  induction limit with
  | zero => exact ⟨[], root, w, .start, .inl rfl⟩
  | succ limit ih =>
    obtain ⟨reports, root', w', rounds, all | ⟨less, stops⟩⟩ := ih
    · have less : reports.length < limit + 1 := by omega
      rcases here : round steps makePass root' w' with _ | ⟨e | ⟨newRoot, replaced⟩, w''⟩
      · exact ⟨_, _, _, rounds, .inr ⟨less, .inl here⟩⟩
      · exact ⟨_, _, _, rounds, .inr ⟨less, .inr (.inl ⟨e, w'', here⟩)⟩⟩
      · by_cases settled : replaced = 0 ∧ newRoot = root'
        · obtain ⟨rfl, rfl⟩ := settled
          exact ⟨_, _, _, rounds, .inr ⟨less, .inr (.inr ⟨w'', here⟩)⟩⟩
        · exact ⟨_, _, _, .next rounds here settled, .inl (by simp [all])⟩
    · exact ⟨_, _, _, rounds, .inr ⟨by omega, stops⟩⟩

end FixedPoint

open FixedPoint

variable {σ : Type} {steps limit : Nat} {makePass : σ → Pass σ} {root root' : NodeId}
  {w w' w'' : World σ} {reports : List UInt64}

section Outcomes

variable (rounds : Rounds steps makePass root (w.note (.started .settle root)) reports root' w')

include rounds

theorem settle_eq (left : Nat) :
    settle steps (reports.length + left) makePass root w =
      iterate steps makePass left reports.length reports.sum root' w' :=
  rounds.iterate_eq left

theorem settle_of_settled (less : reports.length < limit)
    (last : round steps makePass root' w' = some (.ok (root', 0), w'')) :
    settle steps limit makePass root w =
      some (.ok ⟨root', reports.length + 1, reports.sum⟩,
        w''.note (.settled (reports.length + 1) reports.sum)) := by
  obtain ⟨left, rfl⟩ := Nat.exists_eq_add_of_lt less
  rw [Nat.add_assoc, settle_eq rounds, iterate, last]
  simp

theorem settle_of_failed {e : Fault} (less : reports.length < limit)
    (last : round steps makePass root' w' = some (.error e, w'')) :
    settle steps limit makePass root w = some (.error e, w'') := by
  obtain ⟨left, rfl⟩ := Nat.exists_eq_add_of_lt less
  rw [Nat.add_assoc, settle_eq rounds, iterate, last]

theorem settle_of_endless (less : reports.length < limit)
    (last : round steps makePass root' w' = none) :
    settle steps limit makePass root w = none := by
  obtain ⟨left, rfl⟩ := Nat.exists_eq_add_of_lt less
  rw [Nat.add_assoc, settle_eq rounds, iterate, last]

theorem settle_of_exhausted (all : reports.length = limit) :
    settle steps limit makePass root w = some (.error (.noFixedPoint limit), w') := by
  subst all
  exact settle_eq rounds 0

end Outcomes

/-! ### Counting the calls of a maker

A maker of passes can only be watched through the state. So the state gets a number beside it that the
handlers know nothing of, and the maker adds one to it whenever it makes a pass. -/

def Tally.withCalls (t : Tally σ) (calls : Nat) : Tally (σ × Nat) :=
  ⟨t.replaced, (t.own, calls)⟩

def Tally.withoutCalls (t : Tally (σ × Nat)) : Tally σ :=
  ⟨t.replaced, t.own.1⟩

def Next.withCalls {α : Type} (calls : Nat) :
    Next (World (Tally σ)) Transformer.Reply α →
      Next (World (Tally (σ × Nat))) Transformer.Reply α
  | finish r w => .finish r { w with state := w.state.withCalls calls }
  | call c w resume => .call c { w with state := w.state.withCalls calls } fun r w' =>
      (resume r { w' with state := w'.state.withoutCalls }).withCalls w'.state.own.2

/-- The pass with a number in its state that its handlers do not know. -/
def Transformer.withCalls (r : Transformer σ) : Transformer (σ × Nat) where
  enter h := fun w =>
    (r.enter h { w with state := w.state.withoutCalls }).withCalls w.state.own.2
  method t id := fun w =>
    (r.method t id { w with state := w.state.withoutCalls }).withCalls w.state.own.2

/-- Makes the same passes and counts them in the state. -/
def countCalls (makePass : σ → Pass σ) (s : σ × Nat) : Pass (σ × Nat) where
  transformer := (makePass s.1).transformer.withCalls
  start := (makePass s.1).start.withCalls (s.2 + 1)

def World.withCalls (w : World σ) (calls : Nat) : World (σ × Nat) :=
  { w with state := (w.state, calls) }

def callsTie (σ : Type) (calls : Nat) : Tie σ (σ × Nat) where
  world w w' := w' = { w with state := w.state.withCalls calls }
  arena same := congrArg World.arena same
  replaced same := congrArg (·.state.replaced) same
  note _ same := by rw [same]; rfl
  store _ same := by rw [same]
  bump _ same := by rw [same]; rfl

theorem Next.withCalls_matches {α : Type} (calls : Nat)
    (next : Next (World (Tally σ)) Transformer.Reply α) :
    Next.Matches (callsTie σ calls).tasks Eq next.embed (next.withCalls calls).embed := by
  induction next with
  | finish r w => exact .finish (.refl (fun _ => rfl) r) rfl
  | call c w resume ih =>
    refine .call rfl rfl fun r r' v v' results worlds => ?_
    cases worlds
    rw [agree_heq_iff.mp results]
    exact ih r v

theorem FixedPoint.round_countCalls (steps : Nat) (makePass : σ → Pass σ) (root : NodeId)
    (w : World σ) (calls : Nat) :
    round steps (countCalls makePass) root (w.withCalls calls) =
      (round steps makePass root w).map fun (r, w') => (r, w'.withCalls (calls + 1)) := by
  let pass := makePass w.state
  have outcomes : Option.Rel _ (pass.transformer.transform steps root ⟨w.arena, w.log, pass.start⟩)
      (pass.transformer.withCalls.transform steps root
        ⟨w.arena, w.log, pass.start.withCalls (calls + 1)⟩) :=
    (callsTie σ (calls + 1)).transform_rel
      (fun h v v' same => by cases same; exact Next.withCalls_matches _ _)
      (fun t id v v' same => by cases same; exact Next.withCalls_matches _ _) steps root rfl
  have same : pass.transformer.withCalls.transform steps root
        ⟨w.arena, w.log, pass.start.withCalls (calls + 1)⟩ =
      (pass.transformer.transform steps root ⟨w.arena, w.log, pass.start⟩).map fun o =>
        (o.1, { o.2 with state := o.2.state.withCalls (calls + 1) }) :=
    eq_map_of_rel (fun _ _ ends => Prod.ext ends.1 ends.2) outcomes
  change Option.map _ (pass.transformer.withCalls.transform steps root
    ⟨w.arena, w.log, pass.start.withCalls (calls + 1)⟩) = Option.map _ (Option.map _ _)
  rw [same, Option.map_map, Option.map_map]
  rfl

/-- With its calls counted, a maker takes part in the same rounds, one call for each. -/
theorem FixedPoint.Rounds.countCalls (rounds : Rounds steps makePass root w reports root' w')
    (calls : Nat) :
    Rounds steps (countCalls makePass) root (w.withCalls calls) reports root'
      (w'.withCalls (calls + reports.length)) := by
  induction rounds with
  | start => exact .start
  | next _ round changed ih =>
    rw [List.length_append, List.length_singleton, ← Nat.add_assoc]
    exact .next ih (by rw [round_countCalls, round]; rfl) changed

/-- As many passes are made as there are rounds: the pass for round `k + 1` is made if `k` rounds have
changed something and the limit allows for one more. -/
theorem settle_countCalls {outcome : Except Fault FixedPoint}
    (done : settle steps limit makePass root w = some (outcome, w')) :
    ∃ calls,
      settle steps limit (countCalls makePass) root (w.withCalls 0) =
          some (outcome, w'.withCalls calls) ∧
      ∀ k, k < calls ↔ k < limit ∧ ∃ reports root' w'',
        Rounds steps makePass root (w.note (.started .settle root)) reports root' w'' ∧
          reports.length = k := by
  obtain ⟨reports, root', last, rounds, all | ⟨less, stops⟩⟩ :=
    exists_rounds steps makePass root (w.note (.started .settle root)) limit
  · have counted := rounds.countCalls 0
    cases (settle_of_exhausted rounds all).symm.trans done
    refine ⟨_, settle_of_exhausted (w := w.withCalls 0) counted all, fun k => ⟨fun lt => ?_, fun lt => ?_⟩⟩
    · rw [Nat.zero_add, all] at lt
      exact ⟨lt, rounds.exists_of_le (by omega)⟩
    · rw [Nat.zero_add, all]
      exact lt.1
  · have counted := rounds.countCalls 0
    have within : ∀ k, k < 0 + reports.length + 1 ↔ k < limit ∧ ∃ reports root' w'',
        Rounds steps makePass root (w.note (.started .settle root)) reports root' w'' ∧
          reports.length = k := by
      intro k
      constructor
      · intro lt
        exact ⟨by omega, rounds.exists_of_le (by omega)⟩
      · rintro ⟨-, _, _, _, there, rfl⟩
        have le := rounds.length_le_of_stops stops there
        omega
    rcases stops with none | ⟨e, w'', failed⟩ | ⟨w'', settled⟩
    · cases (settle_of_endless rounds less none).symm.trans done
    · cases (settle_of_failed rounds less failed).symm.trans done
      have last : round steps (countCalls makePass) root' (last.withCalls (0 + reports.length)) = _ :=
        (round_countCalls ..).trans (congrArg _ failed)
      exact ⟨_, settle_of_failed (w := w.withCalls 0) counted less last, within⟩
    · cases (settle_of_settled rounds less settled).symm.trans done
      have last : round steps (countCalls makePass) root' (last.withCalls (0 + reports.length)) = _ :=
        (round_countCalls ..).trans (congrArg _ settled)
      exact ⟨_, settle_of_settled (w := w.withCalls 0) counted less last, within⟩

def Transformer.renewed (r : Transformer σ) (start : UInt64) (s : σ) : Pass σ :=
  ⟨r, ⟨start, s⟩⟩

theorem sum_eq_ofNat (reports : List UInt64) :
    reports.sum = UInt64.ofNat (reports.map UInt64.toNat).sum := by
  induction reports with
  | nil => rfl
  | cons report reports ih =>
    rw [List.sum_cons, List.map_cons, List.sum_cons, UInt64.ofNat_add, UInt64.ofNat_toNat, ih]

theorem settle_ok_iff {fp : FixedPoint} {final : World σ} :
    settle steps limit makePass root w = some (.ok fp, final) ↔
      ∃ reports before after,
        Rounds steps makePass root (w.note (.started .settle root)) reports fp.root before ∧
        round steps makePass fp.root before = some (.ok (fp.root, 0), after) ∧
        fp.rounds = reports.length + 1 ∧ fp.rounds ≤ limit ∧ fp.total = reports.sum ∧
        final = after.note (.settled fp.rounds fp.total) := by
  constructor
  · intro done
    obtain ⟨reports, root', before, rounds, all | ⟨less, none | ⟨e, after, failed⟩ | ⟨after, settled⟩⟩⟩ :=
      exists_rounds steps makePass root (w.note (.started .settle root)) limit
    · cases (settle_of_exhausted rounds all).symm.trans done
    · cases (settle_of_endless rounds less none).symm.trans done
    · cases (settle_of_failed rounds less failed).symm.trans done
    · cases (settle_of_settled rounds less settled).symm.trans done
      exact ⟨reports, before, after, rounds, settled, rfl, less, rfl, rfl⟩
  · obtain ⟨root', count, total⟩ := fp
    rintro ⟨reports, before, after, rounds, settled, rfl, less, rfl, rfl⟩
    exact settle_of_settled rounds less settled

theorem settle_error_iff {e : Fault} {final : World σ} :
    settle steps limit makePass root w = some (.error e, final) ↔
      (∃ reports root' before,
        Rounds steps makePass root (w.note (.started .settle root)) reports root' before ∧
        reports.length < limit ∧ round steps makePass root' before = some (.error e, final)) ∨
      e = .noFixedPoint limit ∧ ∃ reports root',
        Rounds steps makePass root (w.note (.started .settle root)) reports root' final ∧
        reports.length = limit := by
  constructor
  · intro done
    obtain ⟨reports, root', before, rounds, all | ⟨less, none | ⟨e, after, failed⟩ | ⟨after, settled⟩⟩⟩ :=
      exists_rounds steps makePass root (w.note (.started .settle root)) limit
    · cases (settle_of_exhausted rounds all).symm.trans done
      exact .inr ⟨rfl, reports, root', rounds, all⟩
    · cases (settle_of_endless rounds less none).symm.trans done
    · cases (settle_of_failed rounds less failed).symm.trans done
      exact .inl ⟨reports, root', before, rounds, less, failed⟩
    · cases (settle_of_settled rounds less settled).symm.trans done
  · rintro (⟨reports, root', before, rounds, less, failed⟩ | ⟨rfl, reports, root', rounds, all⟩)
    · exact settle_of_failed rounds less failed
    · exact settle_of_exhausted rounds all

theorem settle_none_iff :
    settle steps limit makePass root w = none ↔
      ∃ reports root' before,
        Rounds steps makePass root (w.note (.started .settle root)) reports root' before ∧
        reports.length < limit ∧ round steps makePass root' before = none := by
  constructor
  · intro endless
    obtain ⟨reports, root', before, rounds, all | ⟨less, none | ⟨e, after, failed⟩ | ⟨after, settled⟩⟩⟩ :=
      exists_rounds steps makePass root (w.note (.started .settle root)) limit
    · cases (settle_of_exhausted rounds all).symm.trans endless
    · exact ⟨reports, root', before, rounds, less, none⟩
    · cases (settle_of_failed rounds less failed).symm.trans endless
    · cases (settle_of_settled rounds less settled).symm.trans endless
  · rintro ⟨reports, root', before, rounds, less, none⟩
    exact settle_of_endless rounds less none

/-- A fixed point that was reached in some rounds is reached with every limit that allows for them, and
with no other. -/
theorem settle_of_other_limit {fp : FixedPoint} {final : World σ}
    (done : settle steps limit makePass root w = some (.ok fp, final)) (other : Nat) :
    (fp.rounds ≤ other → settle steps other makePass root w = some (.ok fp, final)) ∧
      (other < fp.rounds → ∃ final',
        settle steps other makePass root w = some (.error (.noFixedPoint other), final')) := by
  obtain ⟨reports, before, after, rounds, settled, count, -, total, last⟩ := settle_ok_iff.mp done
  constructor
  · intro enough
    exact settle_ok_iff.mpr ⟨reports, before, after, rounds, settled, count, enough, total, last⟩
  · intro few
    obtain ⟨first, root', left, rounds, length⟩ := rounds.exists_of_le (k := other) (by omega)
    exact ⟨left, settle_of_exhausted rounds length⟩

/-- What becomes of a repeated transformation. It reaches a fixed point in as many rounds as it takes to
come to one that reports nothing and keeps the root, and adds up the reports as a word; it fails with the
fault of a round that fails before, and for want of rounds when all of them changed something. One pass is
made for each round. A larger limit makes no difference once a fixed point is reached. -/
theorem settle_follows_rounds (steps limit : Nat) (makePass : σ → Pass σ) (root : NodeId)
    (w : World σ) :
    let rounds := Rounds steps makePass root (w.note (.started .settle root))
    (∀ fp final, settle steps limit makePass root w = some (.ok fp, final) ↔
      ∃ reports before after, rounds reports fp.root before ∧
        round steps makePass fp.root before = some (.ok (fp.root, 0), after) ∧
        fp.rounds = reports.length + 1 ∧ fp.rounds ≤ limit ∧
        fp.total = UInt64.ofNat (reports.map UInt64.toNat).sum ∧
        final = after.note (.settled fp.rounds fp.total)) ∧
    (∀ e final, settle steps limit makePass root w = some (.error e, final) ↔
      (∃ reports root' before, rounds reports root' before ∧ reports.length < limit ∧
        round steps makePass root' before = some (.error e, final)) ∨
      e = .noFixedPoint limit ∧
        ∃ reports root', rounds reports root' final ∧ reports.length = limit) ∧
    (settle steps limit makePass root w = none ↔
      ∃ reports root' before, rounds reports root' before ∧ reports.length < limit ∧
        round steps makePass root' before = none) ∧
    (∀ outcome final, settle steps limit makePass root w = some (outcome, final) →
      ∃ calls,
        settle steps limit (countCalls makePass) root (w.withCalls 0) =
            some (outcome, final.withCalls calls) ∧
        ∀ k, k < calls ↔ k < limit ∧
          ∃ reports root' before, rounds reports root' before ∧ reports.length = k) ∧
    (∀ fp final, settle steps limit makePass root w = some (.ok fp, final) → ∀ other,
      (fp.rounds ≤ other → settle steps other makePass root w = some (.ok fp, final)) ∧
      (other < fp.rounds → ∃ final',
        settle steps other makePass root w = some (.error (.noFixedPoint other), final'))) := by
  refine ⟨fun fp final => ?_, fun _ _ => settle_error_iff, settle_none_iff,
    fun _ _ => settle_countCalls, fun _ _ => settle_of_other_limit⟩
  simp only [← sum_eq_ofNat]
  exact settle_ok_iff

end ProgramTree
