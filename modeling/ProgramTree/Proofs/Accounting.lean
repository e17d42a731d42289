import Mathlib.Algebra.Order.BigOperators.Group.Finset
import ProgramTree.Proofs.Confinement
import ProgramTree.Proofs.Replacement

/-!
What the count of a transforming pass tells. A place may be overwritten several times, also back to what
it held before, so the count is no measure of what has changed; but nothing changes without being counted
(`Transformer.count_covers_changes`).
-/

namespace ProgramTree

section Changes

/-- How many of the handles lead to another node in the second list. -/
def moved (hs hs' : List Handle) : Nat :=
  (hs.zip hs').countP fun p => decide (p.2.node ≠ p.1.node)

theorem moved_cons (h h' : Handle) (hs hs' : List Handle) :
    moved (h :: hs) (h' :: hs') = moved hs hs' + if h'.node ≠ h.node then 1 else 0 := by
  simp [moved, List.countP_cons]

theorem moved_self (hs : List Handle) : moved hs hs = 0 := by
  induction hs with
  | nil => rfl
  | cons h hs ih => simp [moved_cons, ih]

theorem moved_trans : {hs hs' hs'' : List Handle} → hs'.length = hs.length →
    hs''.length = hs'.length → moved hs hs'' ≤ moved hs hs' + moved hs' hs''
  | [], _, _, _, _ => by simp [moved]
  | h :: hs, h' :: hs', h'' :: hs'', aligned, aligned' => by
    have rest := moved_trans (Nat.succ.inj aligned) (Nat.succ.inj aligned')
    simp only [moved_cons]
    by_cases first : h'.node = h.node
    · simp only [first, ne_eq, not_true_eq_false, if_false]
      omega
    · simp only [first, ne_eq, not_false_eq_true, if_true]
      split <;> omega

theorem eq_of_moved : {hs hs' : List Handle} → hs'.map Handle.category = hs.map Handle.category →
    moved hs hs' = 0 → hs' = hs
  | [], [], _, _ => rfl
  | [], _ :: _, categories, _ => by simp at categories
  | _ :: _, [], categories, _ => by simp at categories
  | h :: hs, h' :: hs', categories, still => by
    rw [List.map_cons, List.map_cons, List.cons.injEq] at categories
    rw [moved_cons] at still
    have rest := eq_of_moved categories.2 (by omega)
    have node : h'.node = h.node := by
      by_contra other
      simp [other] at still
    obtain ⟨category, node'⟩ := h
    obtain ⟨category', node''⟩ := h'
    simp_all

theorem moved_set (lane : Lane) (new : NodeId) {old : NodeId} : (places : List (Option NodeId)) → (i : Nat) →
    places[i]? = some (some old) →
      moved (lane.held places) (lane.held (places.set i (some new))) ≤ 1
  | [], _, there => by simp at there
  | place :: places, 0, there => by
    obtain rfl : place = some old := by simpa using there
    rw [List.set_cons_zero, Lane.held_cons_some, Lane.held_cons_some, moved_cons, moved_self]
    split <;> omega
  | none :: places, i + 1, there => moved_set lane new places i (by simpa using there)
  | some id :: places, i + 1, there => by
    rw [List.set_cons_succ, Lane.held_cons_some, Lane.held_cons_some, moved_cons]
    simpa using moved_set lane new places i (by simpa using there)

def rowsMoved (rows rows' : List Row) : Nat :=
  ((rows.zip rows').map fun p => moved p.1.held p.2.held).sum

theorem rowsMoved_cons (row row' : Row) (rows rows' : List Row) :
    rowsMoved (row :: rows) (row' :: rows') = moved row.held row'.held + rowsMoved rows rows' := by
  simp [rowsMoved]

theorem rowsMoved_self (rows : List Row) : rowsMoved rows rows = 0 := by
  induction rows with
  | nil => rfl
  | cons row rows ih => rw [rowsMoved_cons, moved_self, ih]

theorem Row.Alike.length {row row' : Row} (alike : row.Alike row') :
    row'.held.length = row.held.length := by
  simpa using congrArg List.length alike.2

theorem rowsMoved_trans {rows rows' rows'' : List Row} (first : List.Forall₂ Row.Alike rows rows')
    (second : List.Forall₂ Row.Alike rows' rows'') :
    rowsMoved rows rows'' ≤ rowsMoved rows rows' + rowsMoved rows' rows'' := by
  induction first generalizing rows'' with
  | nil => simp [rowsMoved]
  | cons here _ ih =>
    cases second with
    | cons there rest =>
      have row := moved_trans here.length there.length
      have others := ih rest
      simp only [rowsMoved_cons]
      omega

theorem eq_of_rowsMoved {rows rows' : List Row} (alike : List.Forall₂ Row.Alike rows rows')
    (still : rowsMoved rows rows' = 0) : rows' = rows := by
  induction alike with
  | nil => rfl
  | @cons row row' _ _ here _ ih =>
    rw [rowsMoved_cons] at still
    have held := eq_of_moved here.2 (by omega)
    rw [ih (by omega)]
    obtain ⟨lane, hs⟩ := row
    obtain ⟨lane', hs'⟩ := row'
    obtain ⟨rfl, -⟩ := here
    rw [show hs' = hs from held]

theorem rowsMoved_modify (new : NodeId) {old : NodeId} {i : Nat} {places : List (Option NodeId)}
    (there : places[i]? = some (some old)) :
    (lanes : List Lane) → (view : List (List (Option NodeId))) → (k : Nat) → view[k]? = some places →
      rowsMoved (List.zipWith Lane.row lanes view)
        (List.zipWith Lane.row lanes (view.modify k fun places => places.set i (some new))) ≤ 1
  | [], _, _, _ => by simp [rowsMoved]
  | _ :: _, [], _, here => by simp at here
  | lane :: lanes, places' :: view, 0, here => by
    obtain rfl : places' = places := by simpa using here
    rw [List.modify_zero_cons, List.zipWith_cons_cons, List.zipWith_cons_cons, rowsMoved_cons,
      rowsMoved_self]
    exact moved_set lane new places' i there
  | lane :: lanes, places' :: view, k + 1, here => by
    rw [List.modify_succ_cons, List.zipWith_cons_cons, List.zipWith_cons_cons, rowsMoved_cons,
      moved_self, Nat.zero_add]
    exact rowsMoved_modify new there lanes view k (by simpa using here)

theorem Node.changesIn_true (n m : Node) : n.changesIn (fun _ => true) m = rowsMoved n.rows m.rows := by
  simp [Node.changesIn, rowsMoved, Row.changes, moved]

theorem Node.changesIn_fill {n : Node} {k i : Nat} {old : NodeId}
    (there : n.place? k i = some (some old)) (new : NodeId) :
    n.changesIn (fun _ => true) (n.fill k i new) ≤ 1 := by
  rw [Node.place?, Record.place?_eq] at there
  obtain ⟨places, here, there⟩ := Option.bind_eq_some_iff.mp there
  have filled : (n.fill k i new).record.children (n.fill k i new).tag.fields = _ :=
    Record.children_fill n.tag.fields n.record k i new
  rw [Node.changesIn_true, Node.rows_eq, Node.rows_eq, filled]
  exact rowsMoved_modify new there _ _ k here

namespace Arena

variable {a b c : Arena} {id : NodeId} {n m : Node}

def changesAt (a b : Arena) (id : NodeId) : Nat :=
  match a.node id, b.node id with
  | .ok n, .ok m => n.changesIn (fun _ => true) m
  | _, _ => 0

theorem changes_eq_sum (a b : Arena) :
    a.changes b = ∑ i ∈ Finset.range a.size, a.changesAt b ⟨i⟩ :=
  rfl

theorem changesAt_of_node (before : a.node id = .ok n) (after : b.node id = .ok m) :
    a.changesAt b id = n.changesIn (fun _ => true) m := by
  simp only [changesAt, before, after]

theorem changesAt_of_kept (kept : ∀ n, a.node id = .ok n → b.node id = .ok n) :
    a.changesAt b id = 0 := by
  cases stored : a.node id with
  | error e => simp only [changesAt, stored]
  | ok n => rw [changesAt_of_node stored (kept n stored), Node.changesIn_self]

theorem changes_of_kept (kept : ∀ id n, a.node id = .ok n → b.node id = .ok n) : a.changes b = 0 := by
  rw [changes_eq_sum]
  exact Finset.sum_eq_zero fun i _ => changesAt_of_kept (kept ⟨i⟩)

/-- A slot that has changed in two steps has changed in one of them. -/
theorem changes_trans (first : a.Grows b) (second : b.Grows c) :
    a.changes c ≤ a.changes b + b.changes c := by
  have fewer : ∑ i ∈ Finset.range a.size, b.changesAt c ⟨i⟩ ≤ b.changes c := by
    rw [changes_eq_sum]
    exact Finset.sum_le_sum_of_subset (Finset.range_mono first.size_le)
  have each : ∀ i ∈ Finset.range a.size,
      a.changesAt c ⟨i⟩ ≤ a.changesAt b ⟨i⟩ + b.changesAt c ⟨i⟩ := by
    intro i inside
    obtain ⟨n, stored⟩ := exists_node_of_lt (Finset.mem_range.mp inside)
    obtain ⟨m, stored', alike⟩ := first.node stored
    obtain ⟨p, stored'', alike'⟩ := second.node stored'
    rw [changesAt_of_node stored stored'', changesAt_of_node stored stored',
      changesAt_of_node stored' stored'']
    simp only [Node.changesIn_true]
    exact rowsMoved_trans alike.rows alike'.rows
  have sum := Finset.sum_le_sum each
  rw [Finset.sum_add_distrib, ← changes_eq_sum, ← changes_eq_sum] at sum
  omega

theorem changes_put (stored : a.node id = .ok n) (record : Record n.tag.fields) :
    a.changes (a.put n.tag id record) = n.changesIn (fun _ => true) ⟨n.tag, record, n.span⟩ := by
  rw [changes_eq_sum, Finset.sum_eq_single_of_mem id.index (Finset.mem_range.mpr (lt_size_of_node stored))]
  · exact changesAt_of_node stored (node_put_self stored)
  · intro j _ other
    have apart : id ≠ ⟨j⟩ := fun both => other (congrArg NodeId.index both).symm
    exact changesAt_of_kept fun m there => by rwa [node_put_ne apart]

theorem Grows.node_of_changes (grows : a.Grows b) (still : a.changes b = 0) (stored : a.node id = .ok n) :
    b.node id = .ok n := by
  obtain ⟨m, stored', alike⟩ := grows.node stored
  rw [changes_eq_sum, Finset.sum_eq_zero_iff] at still
  have here := still id.index (Finset.mem_range.mpr (lt_size_of_node stored))
  rw [changesAt_of_node stored stored', Node.changesIn_true] at here
  rw [stored', alike.eq (eq_of_rowsMoved alike.rows here)]

theorem grows_allocAll (a : Arena) (fresh : List Node) : a.Grows (a.allocAll fresh) := by
  induction fresh generalizing a with
  | nil => exact .refl a
  | cons n fresh ih => exact .trans ⟨[n], .alloc n⟩ (ih _)

end Arena

end Changes

variable {σ : Type}

/-- From one world to the other, places were overwritten `overwritten` times, and all but `pending` of
these times have been counted. -/
structure World.Accounts (w w' : World (Tally σ)) (overwritten pending : Nat) : Prop where
  grows : w.arena.Grows w'.arena
  changes : w.arena.changes w'.arena ≤ overwritten
  balance : w'.state.replaced + UInt64.ofNat pending = w.state.replaced + UInt64.ofNat overwritten

def World.Supplied (w w' : World (Tally σ)) : Prop :=
  (∃ fresh, w'.arena = w.arena.allocAll fresh) ∧ w'.state.replaced = w.state.replaced

theorem World.Supplied.refl (w : World (Tally σ)) : w.Supplied w :=
  ⟨⟨[], rfl⟩, rfl⟩

namespace World.Accounts

variable {w w₁ w₂ : World (Tally σ)} {n m x y : Nat}

theorem trans (first : w.Accounts w₁ n x) (second : w₁.Accounts w₂ m y) :
    w.Accounts w₂ (n + m) (x + y) where
  grows := first.grows.trans second.grows
  changes := by
    have both := Arena.changes_trans first.grows second.grows
    have := first.changes
    have := second.changes
    omega
  balance := by
    have later := second.balance
    calc w₂.state.replaced + UInt64.ofNat (x + y)
        = w₂.state.replaced + UInt64.ofNat y + UInt64.ofNat x := by
          rw [Nat.add_comm x, UInt64.ofNat_add, UInt64.add_assoc]
      _ = w₁.state.replaced + UInt64.ofNat x + UInt64.ofNat m := by
          rw [later, UInt64.add_assoc, UInt64.add_comm (UInt64.ofNat m), UInt64.add_assoc]
      _ = w.state.replaced + UInt64.ofNat (n + m) := by
          rw [first.balance, UInt64.ofNat_add, UInt64.add_assoc]

theorem supplied (supplied : w.Supplied w₁) : w.Accounts w₁ 0 0 := by
  obtain ⟨⟨fresh, arena⟩, replaced⟩ := supplied
  refine ⟨?_, ?_, by rw [replaced]⟩
  · rw [arena]
    exact Arena.grows_allocAll _ fresh
  · rw [arena]
    exact Nat.le_of_eq (Arena.changes_of_kept fun _ _ => Arena.node_allocAll_of_ok fresh)

theorem store {owner new old : NodeId} {node : Node} {k i : Nat}
    (stored : w.arena.node owner = .ok node) (there : node.place? k i = some (some old)) :
    w.Accounts { w with arena := w.arena.put node.tag owner (node.fill k i new).record } 1 1 where
  grows := ⟨[], .put stored (Node.alike_fill there new)⟩
  changes := (Arena.changes_put stored _).trans_le (Node.changesIn_fill there new)
  balance := rfl

theorem bump (accounts : w.Accounts w₁ n x) : w.Accounts (w₁.bump x) n 0 where
  grows := accounts.grows
  changes := accounts.changes
  balance := (UInt64.add_zero _).trans accounts.balance

end World.Accounts

/-- Code of a handler that calls engine functions, passes on their faults, allocates nodes, and does
not touch the count. -/
inductive Next.Fair {α : Type} :
    World (Tally σ) → Next (World (Tally σ)) Transformer.Reply α → Prop where
  | finish {w w' : World (Tally σ)} {r : Except Fault α} : w.Supplied w' → Fair w (.finish r w')
  | call {w w' : World (Tally σ)} {c : Call}
      {resume : Except Fault (Transformer.Reply c) → World (Tally σ) →
        Next (World (Tally σ)) Transformer.Reply α} :
      w.Supplied w' → (∀ x w'', Fair w'' (resume (.ok x) w'')) →
      (∀ e w'', ∃ w₁, resume (.error e) w'' = .finish (.error e) w₁) → Fair w (.call c w' resume)

namespace Transformer

/-- The handlers are fair, but may answer with what they like. -/
structure Fair (r : Transformer σ) : Prop where
  enter : ∀ h w, (r.enter h w).Fair w
  method : ∀ t id w, (r.method t id w).Fair w

/-- How many places are overwritten when the call ends with this reply: one, if an occupant was entered
by a walk and the answer is another node. -/
def handed (around : List Call) : (c : Call) → Except Fault (Reply c) → Nat
  | .enter h, .ok new =>
    match around with
    | .walk .. :: _ => if new = h.node then 0 else 1
    | _ => 0
  | _, _ => 0

/-- The calls in progress, innermost first, and how often places were overwritten so far. -/
structure Ledger where
  underway : List Call
  overwritten : Nat

def Ledger.note (l : Ledger) : Moment Reply → Ledger
  | .began c => ⟨c :: l.underway, l.overwritten⟩
  | .ended c r => ⟨l.underway.tail, l.overwritten + handed l.underway.tail c r⟩

def ledger (past : List (Moment Reply)) : Ledger :=
  past.foldl Ledger.note ⟨[], 0⟩

/-- How often places were overwritten, as far as can be seen from outside. -/
def overwritten (past : List (Moment Reply)) : Nat :=
  (ledger past).overwritten

theorem ledger_append (past : List (Moment Reply)) (m : Moment Reply) :
    ledger (past ++ [m]) = (ledger past).note m := by
  simp [ledger]

/-- In the call `c`, which was made in the world `w₀` after `past₀`, the books are right. -/
def Books (c : Call) (past₀ : List (Moment Reply)) (w₀ : World (Tally σ)) (pending : Nat)
    (past : List (Moment Reply)) (w : World (Tally σ)) : Prop :=
  ∃ n, ledger past = ⟨c :: (ledger past₀).underway, (ledger past₀).overwritten + n⟩ ∧
    w₀.Accounts w n pending

/-- A call that succeeds leaves the books right. -/
def accounting : Terms (World (Tally σ)) (Moment Reply) Reply where
  pre _ _ _ := True
  good c past w past' x w' :=
    ∃ n, ledger past' = ⟨(ledger past).underway,
        (ledger past).overwritten + n + handed (ledger past).underway c (.ok x)⟩ ∧ w.Accounts w' n 0
  bad _ _ _ _ _ _ := True

theorem handed_of_handler {c : Call} (handler : ∀ t owner, c ≠ .walk t owner) (around : List Call)
    (c' : Call) (r : Except Fault (Reply c')) : handed (c :: around) c' r = 0 := by
  unfold handed
  split
  · split
    · rename_i same
      cases same
      exact absurd rfl (handler _ _)
    · rfl
  · rfl

namespace Books

variable {c : Call} {past₀ past past' : List (Moment Reply)} {w₀ w w' : World (Tally σ)} {x : Nat}

theorem begin (c : Call) (past : List (Moment Reply)) (w : World (Tally σ)) :
    Books c past w 0 (past ++ [.began c]) w :=
  ⟨0, ledger_append .., .supplied (.refl w)⟩

theorem supply (books : Books c past₀ w₀ x past w) (supplied : w.Supplied w') :
    Books c past₀ w₀ x past w' := by
  obtain ⟨n, shown, accounts⟩ := books
  exact ⟨n, shown, accounts.trans (.supplied supplied)⟩

theorem bump (books : Books c past₀ w₀ x past w) : Books c past₀ w₀ 0 past (w.bump x) := by
  obtain ⟨n, shown, accounts⟩ := books
  exact ⟨n, shown, accounts.bump⟩

theorem called {c' : Call} {y : Reply c'} (books : Books c past₀ w₀ x past w)
    (good : accounting.good c' past w past' y w') :
    ∃ n, ledger past' = ⟨c :: (ledger past₀).underway, (ledger past₀).overwritten + n +
        handed (c :: (ledger past₀).underway) c' (.ok y)⟩ ∧ w₀.Accounts w' n x := by
  obtain ⟨n, shown, accounts⟩ := books
  obtain ⟨m, shown', accounts'⟩ := good
  rw [shown] at shown'
  exact ⟨n + m, by rw [shown', Nat.add_assoc _ n], accounts.trans accounts'⟩

theorem finish (books : Books c past₀ w₀ 0 past w) (y : Reply c) :
    accounting.good c past₀ w₀ (past ++ [.ended c (.ok y)]) y w := by
  obtain ⟨n, shown, accounts⟩ := books
  exact ⟨n, by rw [ledger_append, shown]; rfl, accounts⟩

end Books

theorem meets_of_fair {α : Type} {next : Next (World (Tally σ)) Reply α} {c : Call}
    (handler : ∀ t owner, c ≠ .walk t owner) {past₀ past : List (Moment Reply)}
    {w₀ w : World (Tally σ)} (fair : next.Fair w) (books : Books c past₀ w₀ 0 past w) :
    Next.Meets accounting (rounds accounting) (fun past _ w => Books c past₀ w₀ 0 past w)
      (fun _ _ _ => True) past next.embed := by
  induction fair generalizing past with
  | @finish w w' r supplied =>
    cases r with
    | ok a => exact .ok (books.supply supplied)
    | error e => exact .error trivial
  | @call w w' c' resume supplied _ passes ih =>
    refine .call trivial ?_ ?_
    · intro inner y w'' good
      obtain ⟨n, shown, accounts⟩ := (books.supply supplied).called good
      rw [handed_of_handler handler] at shown
      exact ih y w'' ⟨n, shown, accounts⟩
    · intro inner e w'' _
      obtain ⟨w₁, passed⟩ := passes e w''
      rw [passed]
      exact .error trivial

/-- In a walk, every answer that is stored is accounted for. -/
theorem roams_accounting (t : Tag) (owner : NodeId) (past₀ : List (Moment Reply)) (w₀ : World (Tally σ)) :
    Roams accounting t owner (fun _ _ x => Books (.walk t owner) past₀ w₀ x) fun _ _ _ => True where
  lost _ _ := trivial
  skip books _ := books
  enter {k i x past w lane id} here books reads := by
    refine ⟨trivial, fun past' new w' good => ?_, fun _ _ _ _ => trivial⟩
    obtain ⟨m, shown, accounts⟩ := books.called good
    obtain ⟨_, -, accounts'⟩ := good
    obtain ⟨node, old, stored, rfl, there⟩ := World.occupied_of_grows reads accounts'.grows
    refine landed_of_node stored (fun same => ?_) (fun other _ _ => ?_) fun _ gone => ?_
    · exact ⟨m, by simpa [handed, same] using shown, accounts⟩
    · exact ⟨m + 1, by simpa [handed, other, Nat.add_assoc] using shown, accounts.trans (.store stored there)⟩
    · rw [gone] at there
      cases there
  stop _ books _ := books.bump
  single _ _ books := books.bump

theorem Fair.keeps {r : Transformer σ} (fair : r.Fair) : r.Keeps accounting where
  enter {h past w} _ := by
    refine (meets_of_fair ?_ (fair.enter h w) (.begin ..)).weaken fun _ new _ books => books.finish new
    exact fun _ _ => nofun
  unknown _ _ _ := trivial
  method {h past w n} _ _ := by
    refine (meets_of_fair ?_ (fair.method n.tag h.node w) (.begin ..)).weaken
      fun _ new _ books => books.finish new
    exact fun _ _ => nofun
  walk {t owner past w} _ := ⟨_, _, roams_accounting t owner past w, .begin ..,
    fun _ _ books => books.finish (), fun _ _ _ _ => trivial⟩

/-- For any arena and root, and a pass whose handlers are fair: if it succeeds, then its count is the
number of times that places were overwritten, unless that does not fit in a word. No more slots than
that hold another node than before, and nothing else has changed. If the count is 0, then all nodes
are as they were. -/
theorem count_covers_changes (r : Transformer σ) (fair : r.Fair) (steps : Nat) (root newRoot : NodeId)
    (count : UInt64) (w w' : World (Tally σ))
    (done : r.transform steps root w = some (.ok (newRoot, count), w'))
    (fits : w.state.replaced.toNat + overwritten (r.account steps root w) < 2 ^ 64) :
    count.toNat = overwritten (r.account steps root w) ∧
      w.arena.Grows w'.arena ∧ w.arena.changes w'.arena ≤ count.toNat ∧
      (count = 0 → ∀ id n, w.arena.node id = .ok n → w'.arena.node id = .ok n) := by
  obtain ⟨_, last, run, ⟨e, rfl, ended, rfl⟩ | ⟨new, rfl, ended, rfl⟩⟩ := transform_cases done
  · cases ended
  · cases ended
    obtain ⟨n, shown, accounts⟩ := fair.keeps.run trivial run
    have all : overwritten (r.account steps root w) = n := by
      rw [overwritten, account, shown]
      exact Nat.zero_add n
    rw [all] at fits ⊢
    have balance : last.state.replaced = w.state.replaced + UInt64.ofNat n :=
      (UInt64.add_zero _).symm.trans accounts.balance
    have counted : last.state.replaced.toNat = w.state.replaced.toNat + n := by
      rw [balance, UInt64.toNat_add, UInt64.toNat_ofNat']
      omega
    have grown : (growth w.state.replaced last.state.replaced).toNat = n := by
      rw [toNat_growth (by omega), counted, Nat.add_sub_cancel_left]
    refine ⟨grown, accounts.grows, grown ▸ accounts.changes, fun zero id m stored => ?_⟩
    rw [zero] at grown
    obtain rfl : 0 = n := grown
    exact accounts.grows.node_of_changes (Nat.eq_zero_of_le_zero accounts.changes) stored

def toggling : Transformer Unit where
  enter h := do
    let kept ← Script.perform (Call.dispatch h)
    return if kept = ⟨2⟩ then ⟨3⟩ else if kept = ⟨3⟩ then ⟨2⟩ else kept

theorem toggling_fair : toggling.Fair where
  enter _ w := .call (.refl w) (fun _ w => .finish (.refl w)) fun _ w => ⟨w, rfl⟩
  method _ _ w := .call (.refl w) (fun _ w => .finish (.refl w)) fun _ w => ⟨w, rfl⟩

def toggleSample : World (Tally Unit) where
  arena := .ofList
    [⟨.nameSpace, ("all", [], [], [], [⟨1⟩, ⟨1⟩, ⟨2⟩], [], ()), .dummy⟩,
      ⟨.unaryOperator, (.negate, ⟨2⟩, ()), .dummy⟩,
      ⟨.constant, (.int 1, ()), .dummy⟩, ⟨.constant, (.int 2, ()), .dummy⟩]
  log := #[]
  state := ⟨7, ()⟩

/-- The sample after the pass. The negation was overwritten twice and is what it was. -/
def toggleSampleAfter : World (Tally Unit) :=
  { toggleSample with
    arena := toggleSample.arena.put .nameSpace ⟨0⟩ ("all", [], [], [], [⟨1⟩, ⟨1⟩, ⟨3⟩], [], ())
    log := #[.started .transform ⟨0⟩, .transformed 3 false]
    state := ⟨10, ()⟩ }

theorem toggleSample_ends :
    toggling.transform 60 ⟨0⟩ toggleSample = some (.ok (⟨0⟩, 3), toggleSampleAfter) := by
  rfl

theorem count_covers_changes_toggleSample :
    toggling.transform 60 ⟨0⟩ toggleSample = some (.ok (⟨0⟩, 3), toggleSampleAfter) ∧
      overwritten (toggling.account 60 ⟨0⟩ toggleSample) = 3 ∧
      toggleSample.arena.changes toggleSampleAfter.arena = 1 ∧
      toggleSample.arena.changes toggleSampleAfter.arena ≤ (3 : UInt64).toNat := by
  have fits : toggleSample.state.replaced.toNat +
      overwritten (toggling.account 60 ⟨0⟩ toggleSample) < 2 ^ 64 := by
    decide +kernel
  have covers := count_covers_changes toggling toggling_fair 60 ⟨0⟩ ⟨0⟩ 3 toggleSample
    toggleSampleAfter toggleSample_ends fits
  exact ⟨toggleSample_ends, covers.1.symm, by decide +kernel, covers.2.2.1⟩

end Transformer

end ProgramTree
