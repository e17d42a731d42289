import ProgramTree.Proofs.Accounting
import ProgramTree.Proofs.Rounds

/-!
Passes that decide for themselves, from the arena and the handle alone, whether a node is kept, replaced
by another one or replaced by a new one. Such a pass allocates a node only when it answers with it, so it
allocates no more nodes than it overwrites places, but for the root. A round that reports nothing and
keeps the root has therefore left the arena exactly as it was, and any further round from there repeats
it (`settled_arena_is_still`).
-/

namespace ProgramTree

/-- What becomes of a node that was dispatched. -/
inductive Verdict where
  | keep
  | use (id : NodeId)
  | alloc (n : Node)

def Verdict.apply (h : Handle) (a : Arena) : Verdict → NodeId × Arena
  | keep => (h.node, a)
  | use id => (id, a)
  | alloc n => a.alloc n

variable {σ : Type}

/-- The pass whose entry points run the default dispatch and then do as `decide` says. -/
def Transformer.deciding (decide : Arena → Handle → Verdict) : Transformer σ where
  enter h := do
    let _ ← Script.perform (Call.dispatch h)
    Script.step fun w =>
      (.ok ((decide w.arena h).apply h w.arena).1,
        { w with arena := ((decide w.arena h).apply h w.arena).2 })

/-- As many nodes were allocated as places overwritten, and `strayed` more at most. -/
structure World.Spares (w w' : World (Tally σ)) (overwritten pending strayed : Nat) : Prop
    extends World.Accounts w w' overwritten pending where
  size : w'.arena.size ≤ w.arena.size + overwritten + strayed

namespace World.Spares

variable {w w₁ w₂ : World (Tally σ)} {n m x y s t : Nat}

theorem refl (w : World (Tally σ)) : w.Spares w 0 0 0 :=
  ⟨.supplied (.refl w), Nat.le_refl _⟩

theorem trans (first : w.Spares w₁ n x s) (second : w₁.Spares w₂ m y t) :
    w.Spares w₂ (n + m) (x + y) (s + t) where
  toAccounts := first.toAccounts.trans second.toAccounts
  size := by
    have := first.size
    have := second.size
    omega

theorem store {owner new old : NodeId} {node : Node} {k i : Nat} (spares : w.Spares w₁ n x s)
    (few : s ≤ 1) (stored : w₁.arena.node owner = .ok node)
    (there : node.place? k i = some (some old)) :
    w.Spares { w₁ with arena := w₁.arena.put node.tag owner (node.fill k i new).record } (n + 1) (x + 1) 0
    where
  toAccounts := spares.toAccounts.trans (.store stored there)
  size := by
    have before := spares.size
    have same : (w₁.arena.put node.tag owner (node.fill k i new).record).size = w₁.arena.size :=
      Arena.size_put _
    dsimp only
    omega

theorem bump (spares : w.Spares w₁ n x s) : w.Spares (w₁.bump x) n 0 s :=
  ⟨spares.toAccounts.bump, spares.size⟩

end World.Spares

namespace Transformer

def strayed : (c : Call) → Reply c → Nat
  | .enter h, new => if new = h.node then 0 else 1
  | .dispatch _, _ => 0
  | .walk .., _ => 0

/-- A call that succeeds leaves the books right and has spared nodes. What was dispatched is there. -/
def sparing : Terms (World (Tally σ)) (Moment Reply) Reply where
  pre _ _ _ := True
  good c past w past' x w' :=
    (∃ n, ledger past' = ⟨(ledger past).underway,
        (ledger past).overwritten + n + handed (ledger past).underway c (.ok x)⟩ ∧
      w.Spares w' n 0 (strayed c x)) ∧
    ∀ h, c = .dispatch h → h.node.index < w'.arena.size
  bad _ _ _ _ _ _ := True

def Spared (c : Call) (past₀ : List (Moment Reply)) (w₀ : World (Tally σ)) (pending strayed : Nat)
    (past : List (Moment Reply)) (w : World (Tally σ)) : Prop :=
  ∃ n, ledger past = ⟨c :: (ledger past₀).underway, (ledger past₀).overwritten + n⟩ ∧
    w₀.Spares w n pending strayed

namespace Spared

variable {c : Call} {past₀ past past' : List (Moment Reply)} {w₀ w w' : World (Tally σ)} {x s : Nat}

theorem begin (c : Call) (past : List (Moment Reply)) (w : World (Tally σ)) :
    Spared c past w 0 0 (past ++ [.began c]) w :=
  ⟨0, ledger_append .., .refl w⟩

theorem called {c' : Call} {y : Reply c'} (spared : Spared c past₀ w₀ x 0 past w)
    (good : sparing.good c' past w past' y w') :
    ∃ n, ledger past' = ⟨c :: (ledger past₀).underway, (ledger past₀).overwritten + n +
        handed (c :: (ledger past₀).underway) c' (.ok y)⟩ ∧ w₀.Spares w' n x (strayed c' y) := by
  obtain ⟨n, shown, spares⟩ := spared
  obtain ⟨⟨m, shown', spares'⟩, -⟩ := good
  rw [shown] at shown'
  have both := spares.trans spares'
  rw [Nat.zero_add, Nat.add_zero] at both
  exact ⟨n + m, by rw [shown', Nat.add_assoc _ n], both⟩

theorem finish {y : Reply c} (spared : Spared c past₀ w₀ 0 (strayed c y) past w)
    (there : ∀ h, c = .dispatch h → h.node.index < w.arena.size) :
    sparing.good c past₀ w₀ (past ++ [.ended c (.ok y)]) y w := by
  obtain ⟨n, shown, spares⟩ := spared
  exact ⟨⟨n, by rw [ledger_append, shown]; rfl, spares⟩, there⟩

end Spared

/-- A verdict allocates a node only to answer with it. -/
theorem spares_apply (verdict : Verdict) {h : Handle} {w : World (Tally σ)}
    (there : h.node.index < w.arena.size) :
    w.Spares { w with arena := (verdict.apply h w.arena).2 } 0 0
      (strayed (.enter h) (verdict.apply h w.arena).1) := by
  cases verdict with
  | keep => exact ⟨.supplied (.refl w), by simp [Verdict.apply]⟩
  | use id => exact ⟨.supplied (.refl w), by simp [Verdict.apply]⟩
  | alloc n =>
    have other : (w.arena.alloc n).1 ≠ h.node := by
      intro same
      have := congrArg NodeId.index same
      simp only [Arena.alloc] at this
      simp only [Arena.size] at there
      omega
    refine ⟨.supplied ⟨⟨[n], rfl⟩, rfl⟩, ?_⟩
    simp [Verdict.apply, strayed, other]

theorem roams_sparing (t : Tag) (owner : NodeId) (past₀ : List (Moment Reply))
    (w₀ : World (Tally σ)) :
    Roams sparing t owner (fun _ _ x => Spared (.walk t owner) past₀ w₀ x 0) fun _ _ _ => True where
  lost _ _ := trivial
  skip spared _ := spared
  enter {k i x past w lane id} here spared reads := by
    refine ⟨trivial, fun past' new w' good => ?_, fun _ _ _ _ => trivial⟩
    obtain ⟨m, shown, spares⟩ := spared.called good
    obtain ⟨⟨_, -, spares'⟩, -⟩ := good
    obtain ⟨node, old, stored, rfl, there⟩ := World.occupied_of_grows reads spares'.grows
    refine landed_of_node stored (fun same => ?_) (fun other _ _ => ?_) fun _ gone => ?_
    · rw [strayed, if_pos same] at spares
      exact ⟨m, by simpa [handed, same] using shown, spares⟩
    · rw [strayed, if_neg other] at spares
      exact ⟨m + 1, by simpa [handed, other, Nat.add_assoc] using shown,
        spares.store (Nat.le_refl 1) stored there⟩
    · rw [gone] at there
      cases there
  stop _ := fun ⟨n, shown, spares⟩ _ => ⟨n, shown, spares.bump⟩
  single _ _ := fun ⟨n, shown, spares⟩ => ⟨n, shown, spares.bump⟩

theorem deciding_sparing (decide : Arena → Handle → Verdict) :
    (deciding decide : Transformer σ).Keeps sparing where
  enter {h past w} _ := by
    refine .call trivial (fun inner kept w' good => .ok ?_) fun _ _ _ _ => .error trivial
    obtain ⟨n, shown, spares⟩ := (Spared.begin (.enter h) past w).called good
    rw [handed_of_handler (c := .enter h) (by nofun)] at shown
    have both := spares.trans (spares_apply (decide w'.arena h) (good.2 h rfl))
    exact Spared.finish ⟨n, shown, (Nat.zero_add (strayed (.enter h) _)) ▸ both⟩ fun _ => nofun
  unknown _ _ _ := trivial
  method {h past w n} _ shown := by
    refine .call trivial (fun inner _ w' good => .ok ?_) fun _ _ _ _ => .error trivial
    obtain ⟨n, shown', spares⟩ := (Spared.begin (.dispatch h) past w).called good
    rw [handed_of_handler (c := .dispatch h) (by nofun)] at shown'
    refine Spared.finish ⟨n, shown', spares⟩ fun h' same => ?_
    cases same
    exact Nat.lt_of_lt_of_le (Arena.lt_size_of_node shown.1) spares.grows.size_le
  walk {t owner past w} _ := ⟨_, _, roams_sparing t owner past w, .begin ..,
    fun _ _ spared => spared.finish fun _ => nofun, fun _ _ _ _ => trivial⟩

/-- A transformation that reports nothing and keeps the root has left the arena as it was. -/
theorem deciding_still {decide : Arena → Handle → Verdict} {steps : Nat} {root : NodeId}
    {w w' : World (Tally σ)}
    (done : (deciding decide).transform steps root w = some (.ok (root, 0), w'))
    (fits : w.state.replaced.toNat + overwritten ((deciding decide).account steps root w) < 2 ^ 64) :
    w'.arena = w.arena := by
  obtain ⟨_, last, run, ⟨e, rfl, ended, rfl⟩ | ⟨new, rfl, ended, rfl⟩⟩ := transform_cases done
  · cases ended
  · simp only [Except.ok.injEq, Prod.mk.injEq] at ended
    obtain ⟨rfl, zero⟩ := ended
    obtain ⟨⟨n, shown, spares⟩, -⟩ := (deciding_sparing decide).run trivial run
    have all : overwritten ((deciding decide).account steps root w) = n := by
      rw [overwritten, account, shown]
      exact Nat.zero_add n
    have balance : last.state.replaced = w.state.replaced + UInt64.ofNat n :=
      (UInt64.add_zero _).symm.trans spares.balance
    have counted : last.state.replaced.toNat = w.state.replaced.toNat + n := by
      rw [balance, UInt64.toNat_add, UInt64.toNat_ofNat']
      omega
    have grown : (0 : UInt64).toNat = last.state.replaced.toNat - w.state.replaced.toNat := by
      rw [zero]
      exact toNat_growth (by omega)
    rw [counted, Nat.add_sub_cancel_left] at grown
    obtain rfl : 0 = n := grown
    have size := spares.size
    rw [strayed, if_pos rfl] at size
    refine Arena.eq_of_nodes size fun id m stored => ?_
    exact spares.grows.node_of_changes (Nat.eq_zero_of_le_zero spares.changes) stored

end Transformer

def arenaTie (σ σ' : Type) : Tie σ σ' where
  world w w' := w'.arena = w.arena ∧ w'.state.replaced = w.state.replaced
  arena := And.left
  replaced := And.right
  note _ same := same
  store _ same := ⟨rfl, same.2⟩
  bump _ same := ⟨same.1, by rw [World.bump, World.bump, same.2]⟩

/-- A deciding pass sees nothing of the world but the arena. -/
theorem Transformer.deciding_repeats (decide : Arena → Handle → Verdict) (steps : Nat) (root : NodeId)
    {w v : World (Tally σ)} (arena : v.arena = w.arena)
    (replaced : v.state.replaced = w.state.replaced) :
    Option.Rel (fun o o' => o'.1 = o.1 ∧ o'.2.arena = o.2.arena ∧
        o'.2.state.replaced = o.2.state.replaced)
      ((deciding decide).transform steps root w) ((deciding decide).transform steps root v) := by
  refine (arenaTie σ σ).transform_rel (fun h => ?_) (fun t id => ?_) steps root ⟨arena, replaced⟩
  · have code : ((deciding decide : Transformer σ).enter h).embed =
        ((Script.perform (Sum.inl (Call.dispatch h)) >>= fun _ => Script.step fun w =>
          (.ok ((decide w.arena h).apply h w.arena).1,
            { w with arena := ((decide w.arena h).apply h w.arena).2 })) : Task σ NodeId) :=
      Script.embed_bind ..
    rw [code]
    refine .bind (.same_perform _) fun _ _ _ => .step fun w w' worlds => ?_
    rw [worlds.1]
    exact ⟨.ok rfl, rfl, worlds.2⟩
  · have code : ((deciding decide : Transformer σ).method t id).embed =
        (Script.perform (Sum.inl (Call.walk t id)) >>= fun _ => pure id : Task σ NodeId) :=
      Script.embed_bind ..
    rw [code]
    exact .bind (.same_perform _) fun _ _ _ => .pure rfl

open FixedPoint Transformer

/-- For any arena, root and limit: if a deciding pass reaches a fixed point, and its last round has not
overwritten places so often that the count does not fit in a word, then that round has left the arena
exactly as it was. From there on, the same pass settles in its first round and changes nothing. -/
theorem settled_arena_is_still (decide : Arena → Handle → Verdict) (start : UInt64)
    (steps limit : Nat) (root : NodeId) (w final : World σ) (fp : FixedPoint)
    (done : settle steps limit ((deciding decide).renewed start) root w = some (.ok fp, final))
    (fits : ∀ reports before,
      Rounds steps ((deciding decide).renewed start) root (w.note (.started .settle root)) reports
        fp.root before →
      reports.length + 1 = fp.rounds →
      start.toNat + overwritten ((deciding decide).account steps fp.root
        ⟨before.arena, before.log, ⟨start, before.state⟩⟩) < 2 ^ 64) :
    (∃ reports before,
      Rounds steps ((deciding decide).renewed start) root (w.note (.started .settle root)) reports
        fp.root before ∧
      reports.length + 1 = fp.rounds ∧ final.arena = before.arena) ∧
    ∀ again, 1 ≤ again → ∃ last,
      settle steps again ((deciding decide).renewed start) fp.root final =
        some (.ok ⟨fp.root, 1, 0⟩, last) ∧ last.arena = final.arena := by
  obtain ⟨reports, before, after, rounds, settled, length, -, -, rfl⟩ := settle_ok_iff.mp done
  obtain ⟨⟨_, ended⟩, ends, same⟩ := Option.map_eq_some_iff.mp settled
  cases same
  have still : ended.arena = before.arena :=
    deciding_still ends (fits reports before rounds length.symm)
  refine ⟨⟨reports, before, rounds, length.symm, still⟩, fun again enough => ?_⟩
  -- The next round starts from the arena that the last one started from, and so repeats it.
  have repeats := deciding_repeats decide steps fp.root
    (w := ⟨before.arena, before.log, ⟨start, before.state⟩⟩)
    (v := ⟨ended.arena, (ended.log.push (.settled fp.rounds fp.total)).push (.started .settle fp.root),
      ⟨start, ended.state.own⟩⟩) still rfl
  rw [show (deciding decide).transform steps fp.root ⟨before.arena, before.log, ⟨start, before.state⟩⟩ =
    some (.ok (fp.root, 0), ended) from ends] at repeats
  generalize next : (deciding decide).transform steps fp.root _ = outcome at repeats
  cases repeats with
  | @some _ outcome ends' =>
    obtain ⟨result, ended'⟩ := outcome
    obtain ⟨rfl, arena, -⟩ := ends'
    refine ⟨_, settle_of_settled .start enough (congrArg (Option.map _) next), arena⟩

/-- The pass that puts a new constant in the place of the node 1. -/
def renewing : Arena → Handle → Verdict := fun _ h =>
  if h.node = ⟨1⟩ then .alloc ⟨.constant, (.int 2, ()), .dummy⟩ else .keep

def twiceSample : World Unit where
  arena := .ofList
    [⟨.nameSpace, ("all", [], [], [], [⟨1⟩, ⟨1⟩], [], ()), .dummy⟩,
      ⟨.constant, (.int 1, ()), .dummy⟩]
  log := #[]
  state := ()

def twiceSampleAfter : World Unit where
  arena := .ofList
    [⟨.nameSpace, ("all", [], [], [], [⟨2⟩, ⟨3⟩], [], ()), .dummy⟩,
      ⟨.constant, (.int 1, ()), .dummy⟩, ⟨.constant, (.int 2, ()), .dummy⟩,
      ⟨.constant, (.int 2, ()), .dummy⟩]
  log := #[.started .settle ⟨0⟩, .started .transform ⟨0⟩, .transformed 2 false]
  state := ()

theorem twiceSample_changes :
    Rounds 40 ((deciding renewing).renewed 0) ⟨0⟩ (twiceSample.note (.started .settle ⟨0⟩)) [2] ⟨0⟩
      twiceSampleAfter :=
  .next .start (by rfl) (by decide)

theorem twiceSample_settles :
    settle 40 3 ((deciding renewing).renewed 0) ⟨0⟩ twiceSample =
      some (.ok ⟨⟨0⟩, 2, 2⟩, ((twiceSampleAfter.note (.started .transform ⟨0⟩)).note
        (.transformed 0 false)).note (.settled 2 2)) :=
  settle_of_settled twiceSample_changes (by decide) (by rfl)

theorem settled_arena_is_still_twiceSample :
    settle 40 3 ((deciding renewing).renewed 0) ⟨0⟩ twiceSample =
      some (.ok ⟨⟨0⟩, 2, 2⟩, ((twiceSampleAfter.note (.started .transform ⟨0⟩)).note
        (.transformed 0 false)).note (.settled 2 2)) ∧
    ∃ last,
      settle 40 1 ((deciding renewing).renewed 0) ⟨0⟩
          (((twiceSampleAfter.note (.started .transform ⟨0⟩)).note
            (.transformed 0 false)).note (.settled 2 2)) =
        some (.ok ⟨⟨0⟩, 1, 0⟩, last) ∧ last.arena = twiceSampleAfter.arena := by
  refine ⟨twiceSample_settles, (settled_arena_is_still renewing 0 40 3 ⟨0⟩ twiceSample _ ⟨⟨0⟩, 2, 2⟩
    twiceSample_settles fun reports before rounds length => ?_).2 1 (Nat.le_refl 1)⟩
  obtain ⟨-, -, rfl⟩ := twiceSample_changes.unique rounds (Nat.succ.inj length).symm
  decide +kernel

end ProgramTree
