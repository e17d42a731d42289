import ProgramTree.Proofs.LiveEdits

/-!
How many calls the loops over a sequence make. The loop over a copy makes one call for each element, up to
and with the first that fails, whatever the calls do to the sequence. A live loop has no such bound of its
own, since the position and the end of the sequence both move. What bounds it is the number of elements
that its calls insert (`Sequence.length_turns_le`); they may remove and overwrite as many as they like.
Both kinds of loops end with the first fault (`loops_stop`).
-/

namespace ProgramTree

/-- The sequence is a list that the world stores beside the log: a position is looked up in it, and the
list that is there after a write was there before, and was no shorter. -/
structure Access.Listed {σ α : Type} (seq : Access (World σ) α) : Prop where
  read : ∀ i w, seq.read i w = (seq.readAll w).map fun items => items[i]?
  note : ∀ w e, seq.readAll (w.note e) = seq.readAll w
  write : ∀ {i a w items'}, seq.readAll (seq.write i a w).2 = .ok items' →
    ∃ items, seq.readAll w = .ok items ∧ items'.length ≤ items.length

theorem Access.lane_listed {σ : Type} (t : Tag) (owner : NodeId) (k : Nat) :
    (Access.lane t owner k : Access (World σ) (Option NodeId)).Listed where
  read := (Access.lane_lawful t owner k).read
  note := (Access.lane_lawful t owner k).note
  write {i place w items'} stored := by
    cases place with
    | none => exact ⟨items', stored, Nat.le_refl _⟩
    | some child =>
      have lawful := Access.lane_lawful (σ := σ) t owner k
      cases all : (Access.lane t owner k).readAll w with
      | error e =>
        -- Without the owner nothing is written.
        have lost : ∃ e, w.arena.get t owner = .error e := by
          cases got : w.arena.get t owner with
          | error e => exact ⟨e, rfl⟩
          | ok record => simp [lane, World.places, got, Except.map] at all
        obtain ⟨e', lost⟩ := lost
        have same : ((Access.lane t owner k).write i (some child) w).2 = w := by
          simp [lane, World.fill, lost]
        rw [same, all] at stored
        cases stored
      | ok items =>
        refine ⟨items, rfl, ?_⟩
        by_cases less : i < items.length
        · obtain ⟨w', written, all', -⟩ := lawful.write (a := some child) rfl all less
          rw [written, all'] at stored
          rw [← Except.ok.inj stored, List.length_set]
        · rw [lawful.beyond (a := some child) rfl all (Nat.le_of_not_lt less), all] at stored
          rw [Except.ok.inj stored]

namespace LiveLoop

variable {ω α β γ : Type} (l : LiveLoop ω α β γ)

/-- Where the loop stands after so many rounds, if it has not come to its end: the value and the world to
go on with. -/
def standing : (rounds i : Nat) → γ → ω → Option (γ × ω)
  | 0, _, g, w => some (g, w)
  | rounds + 1, i, g, w =>
    match l.round i g w with
    | (_, .inl (g, v)) => standing rounds (i + 1) g v
    | (_, .inr _) => none

/-- The loop, run with more and more steps, makes the calls `turns` and no others, and ends with `o`. -/
def Stops (run : Nat → Option (Except Fault γ × ω)) (g : γ) (w : ω) (turns : List (Turn ω α β))
    (o : Except Fault γ × ω) : Prop :=
  ∃ enough, ∀ steps, enough ≤ steps → run steps = some o ∧ l.turns steps 0 g w = turns

variable {l} {g g' : γ} {w v : ω} {o : Except Fault γ × ω}

theorem turns_of_standing (rounds : Nat) : ∀ {i : Nat} {g : γ} {w : ω},
    l.standing rounds i g w = some (g', v) → ∀ more,
      l.turns (rounds + more) i g w = l.turns rounds i g w ++ l.turns more (i + rounds) g' v ∧
      l.outcome (rounds + more) i g w = l.outcome more (i + rounds) g' v := by
  induction rounds with
  | zero =>
    intro i g w stands more
    cases stands
    simp [turns]
  | succ rounds ih =>
    intro i g w stands more
    rw [Nat.succ_add, turns, turns, outcome]
    rw [standing] at stands
    generalize l.round i g w = result at stands ⊢
    rcases result with ⟨turn, ⟨g₁, u⟩ | ending⟩
    · have rest := ih stands more
      simp [rest, Nat.add_comm 1 rounds, Nat.add_assoc]
    · cases stands

theorem turns_of_outcome (rounds : Nat) : ∀ {i : Nat} {g : γ} {w : ω},
    l.outcome rounds i g w = some o → ∀ more, l.turns (rounds + more) i g w = l.turns rounds i g w := by
  induction rounds with
  | zero => exact fun done => nomatch done
  | succ rounds ih =>
    intro i g w done more
    rw [Nat.succ_add, turns, turns]
    rw [outcome] at done
    generalize l.round i g w = result at done ⊢
    rcases result with ⟨turn, ⟨g₁, u⟩ | ending⟩
    · simp [ih done more]
    · rfl

theorem length_turns_of_running (rounds : Nat) : ∀ {i : Nat} {g : γ} {w : ω},
    l.outcome rounds i g w = none → (l.turns rounds i g w).length = rounds := by
  induction rounds with
  | zero => simp [turns]
  | succ rounds ih =>
    intro i g w running
    rw [turns]
    rw [outcome] at running
    have step := l.step_round i g w
    generalize l.round i g w = result at running step ⊢
    cases step with
    | next reads called closed => simp [ih running]
    | _ => cases running

theorem outcome_of_failed {turn : Turn ω α β} {e : Fault} (failed : turn.result = .error e)
    (rounds : Nat) : ∀ {i : Nat} {g : γ} {w : ω}, turn ∈ l.turns rounds i g w →
      l.outcome rounds i g w = some (.error e, turn.after) ∧
        ∃ before, l.turns rounds i g w = before ++ [turn] := by
  induction rounds with
  | zero => simp [turns]
  | succ rounds ih =>
    intro i g w mem
    rw [turns] at mem ⊢
    rw [outcome]
    have step := l.step_round i g w
    generalize l.round i g w = result at mem step ⊢
    cases step with
    | unread _ | past _ => simp at mem
    | lost reads called closed =>
      obtain rfl : turn = _ := by simpa using mem
      cases failed
    | failed reads called =>
      obtain rfl : turn = _ := by simpa using mem
      cases failed
      exact ⟨rfl, [], rfl⟩
    | next reads called closed =>
      obtain rfl | later : turn = _ ∨ turn ∈ l.turns rounds (i + 1) _ _ := by simpa using mem
      · cases failed
      · obtain ⟨ended, before, last⟩ := ih later
        exact ⟨ended, _ :: before, congrArg (List.cons _) last⟩

theorem stops_of_outcome {run : Nat → Option (Except Fault γ × ω)}
    (runs : ∀ rounds o, l.outcome rounds 0 g w = some o →
      ∃ enough, ∀ steps, enough ≤ steps → run steps = some o)
    {rounds : Nat} (ended : l.outcome rounds 0 g w = some o) :
    l.Stops run g w (l.turns rounds 0 g w) o := by
  obtain ⟨enough, done⟩ := runs rounds o ended
  refine ⟨max enough rounds, fun steps more => ⟨done steps (by omega), ?_⟩⟩
  obtain ⟨extra, rfl⟩ : ∃ extra, steps = rounds + extra := ⟨steps - rounds, by omega⟩
  exact turns_of_outcome rounds ended extra

end LiveLoop

namespace Sequence

variable {σ α β γ : Type}

/-- What `m` insertions can make of a list, with removing and overwriting at will. -/
inductive Edited : (m : Nat) → List α → List α → Prop where
  | refl (items : List α) : Edited 0 items items
  | insert {m i : Nat} {items items' : List α} (a : α) :
      Edited m items items' → i ≤ items'.length → Edited (m + 1) items (items'.insertIdx i a)
  | remove {m : Nat} {items items' : List α} (i : Nat) :
      Edited m items items' → Edited m items (items'.eraseIdx i)
  | overwrite {m : Nat} {items items' : List α} (i : Nat) (a : α) :
      Edited m items items' → Edited m items (items'.set i a)

theorem Edited.length_le {m : Nat} {items items' : List α} (edited : Edited m items items') :
    items'.length ≤ items.length + m := by
  induction edited with
  | refl items => exact Nat.le_refl _
  | insert a _ within ih =>
    rw [List.length_insertIdx_of_le_length within]
    omega
  | remove i _ ih => exact Nat.le_trans (List.length_eraseIdx_le _ _) ih
  | overwrite i a _ ih => rwa [List.length_set]

/-- The call inserts at most `m` elements in the sequence. -/
def InsertsAtMost (seq : Access (World σ) α) (m : Nat) (turn : Turn (World σ) α β) : Prop :=
  ∀ items items', seq.readAll turn.before = .ok items → seq.readAll turn.after = .ok items' →
    ∃ k ≤ m, Edited k items items'

/-- The calls together insert at most so many elements in the sequence. -/
inductive Inserting (seq : Access (World σ) α) : Nat → List (Turn (World σ) α β) → Prop where
  | nil {N : Nat} : Inserting seq N []
  | cons {m N : Nat} {turn : Turn (World σ) α β} {turns : List (Turn (World σ) α β)} :
      InsertsAtMost seq m turn → Inserting seq N turns → Inserting seq (m + N) (turn :: turns)

/-- The loop walks the sequence, and what it does with an answer does not make the sequence longer. -/
structure Walks (seq : Access (World σ) α) (l : LiveLoop (World σ) α β γ) : Prop where
  read : ∀ i w, l.read i w = (seq.readAll w).map fun items => items[i]?
  close : ∀ {i a b g w items'}, seq.readAll (l.close i a b g w).2 = .ok items' →
    ∃ items, seq.readAll w = .ok items ∧ items'.length ≤ items.length

theorem walks_visiting {seq : Access (World σ) α} (listed : seq.Listed)
    (visit : α → World σ → Except Fault Unit × World σ) : Walks seq (visiting seq visit) where
  read := listed.read
  close stored := ⟨_, stored, Nat.le_refl _⟩

theorem walks_replacing [DecidableEq α] {seq : Access (World σ) α} (listed : seq.Listed)
    (replace : α → World σ → Except Fault α × World σ) : Walks seq (replacing seq replace) where
  read := listed.read
  close {i a b n w items'} stored := by
    simp only [replacing] at stored
    split at stored
    · exact ⟨items', stored, Nat.le_refl _⟩
    · rcases written : seq.write i b w with ⟨e | there | there, v⟩ <;>
        simp only [written, listed.note] at stored <;>
        exact listed.write (i := i) (a := b) (by rw [written]; exact stored)

theorem length_turns_le {seq : Access (World σ) α} {l : LiveLoop (World σ) α β γ} (walks : Walks seq l)
    (rounds : Nat) : ∀ {i N : Nat} {g : γ} {w : World σ} {items : List α},
      seq.readAll w = .ok items → Inserting seq N (l.turns rounds i g w) →
      (l.turns rounds i g w).length ≤ items.length + N - i := by
  -- A call is made for a position within the list. What it inserts makes room for as many more calls.
  induction rounds with
  | zero => simp [LiveLoop.turns]
  | succ rounds ih =>
    intro i N g w items all inserting
    rw [LiveLoop.turns] at inserting ⊢
    have step := l.step_round i g w
    generalize l.round i g w = result at step inserting ⊢
    have within : ∀ {a}, l.read i w = .ok (some a) → i < items.length := by
      intro a reads
      rw [walks.read, all] at reads
      exact (List.getElem?_eq_some_iff.mp (Except.ok.inj reads)).choose
    cases step with
    | unread _ | past _ => simp
    | failed reads _ | lost reads _ _ =>
      have := within reads
      simp
      omega
    | @next a b g' u v reads called closed =>
      have less := within reads
      change Inserting seq N (⟨i, a, w, .ok b, u⟩ :: l.turns rounds (i + 1) g' v) at inserting
      change (⟨i, a, w, .ok b, u⟩ :: l.turns rounds (i + 1) g' v).length ≤ _
      rw [List.length_cons]
      cases inserting with
      | @cons m N _ _ few rest =>
        cases all' : seq.readAll v with
        | error e =>
          -- The next read fails.
          have none : l.turns rounds (i + 1) g' v = [] := by
            cases rounds with
            | zero => rfl
            | succ rounds => simp [LiveLoop.turns, LiveLoop.round, walks.read, all', Except.map]
          rw [none, List.length_nil]
          omega
        | ok items' =>
          obtain ⟨middle, after, shorter⟩ :=
            walks.close (i := i) (a := a) (b := b) (g := g) (w := u) (by rw [closed]; exact all')
          obtain ⟨k, le, edited⟩ := few items middle all after
          have grown := edited.length_le
          have bound := ih all' rest
          omega

/-- What bounds a live loop over the sequence from the world `w` on, and what ends it: `run` is the loop,
given a number of steps. -/
structure LiveBounds (seq : Access (World σ) α) (l : LiveLoop (World σ) α β γ) (g : γ) (w : World σ)
    (run : Nat → Option (Except Fault γ × World σ)) : Prop where
  /-- The calls are made for the positions from the first on, each for the element that is there. -/
  called : ∀ rounds, (l.turns rounds 0 g w).map Turn.position = List.range (l.turns rounds 0 g w).length ∧
    ∀ turn ∈ l.turns rounds 0 g w, seq.read turn.position turn.before = .ok (some turn.item) ∧
      l.call turn.item turn.before = (turn.result, turn.after)
  /-- If the calls together insert at most `N` elements, the loop stops after at most `N` calls more than
  there were elements. -/
  bounded : ∀ items N, seq.readAll w = .ok items → (∀ rounds, Inserting seq N (l.turns rounds 0 g w)) →
    ∃ turns o, turns.length ≤ items.length + N ∧ l.Stops run g w turns o
  /-- A position that cannot be read ends the loop. -/
  unread : ∀ i g' v e, l.standing i 0 g w = some (g', v) → seq.read i v = .error e →
    l.Stops run g w (l.turns i 0 g w) (.error e, v)
  /-- A call that fails is the last. -/
  failed : ∀ rounds turn e, turn ∈ l.turns rounds 0 g w → turn.result = .error e →
    ∃ before, l.Stops run g w (before ++ [turn]) (.error e, turn.after)
  /-- An answer that cannot be stored is the last. -/
  unstored : ∀ i g' v a b u e v', l.standing i 0 g w = some (g', v) → seq.read i v = .ok (some a) →
    l.call a v = (.ok b, u) → l.close i a b g' u = (.error e, v') →
    l.Stops run g w (l.turns i 0 g w ++ [⟨i, a, v, .ok b, u⟩]) (.error e, v')

theorem liveBounds_of_walks {seq : Access (World σ) α} {l : LiveLoop (World σ) α β γ} {g : γ}
    {w : World σ} {run : Nat → Option (Except Fault γ × World σ)} (walks : Walks seq l)
    (reads : ∀ i w, l.read i w = seq.read i w)
    (runs : ∀ rounds o, l.outcome rounds 0 g w = some o →
      ∃ enough, ∀ steps, enough ≤ steps → run steps = some o) : LiveBounds seq l g w run where
  called rounds := by
    rw [List.range_eq_range']
    refine ⟨LiveLoop.map_position_turns rounds, fun turn mem => ?_⟩
    rw [← reads]
    exact LiveLoop.turns_called rounds turn mem
  bounded items N all inserting := by
    have bound : ∀ rounds, (l.turns rounds 0 g w).length ≤ items.length + N :=
      fun rounds => length_turns_le walks rounds all (inserting rounds)
    cases ended : l.outcome (items.length + N + 1) 0 g w with
    | none =>
      have := LiveLoop.length_turns_of_running _ ended
      have := bound (items.length + N + 1)
      omega
    | some o => exact ⟨_, o, bound _, LiveLoop.stops_of_outcome runs ended⟩
  unread i g' v e stands fails := by
    obtain ⟨calls, ended⟩ := LiveLoop.turns_of_standing i stands 1
    have last : l.turns 1 (0 + i) g' v = [] ∧ l.outcome 1 (0 + i) g' v = some (.error e, v) := by
      rw [Nat.zero_add]
      simp [LiveLoop.turns, LiveLoop.outcome, LiveLoop.round, reads, fails]
    rw [last.1, List.append_nil] at calls
    rw [← calls]
    exact LiveLoop.stops_of_outcome runs (ended.trans last.2)
  failed rounds turn e mem fails := by
    obtain ⟨ended, before, calls⟩ := LiveLoop.outcome_of_failed fails rounds mem
    refine ⟨before, ?_⟩
    rw [← calls]
    exact LiveLoop.stops_of_outcome runs ended
  unstored i g' v a b u e v' stands there called closed := by
    obtain ⟨calls, ended⟩ := LiveLoop.turns_of_standing i stands 1
    have last : l.turns 1 (0 + i) g' v = [⟨i, a, v, .ok b, u⟩] ∧
        l.outcome 1 (0 + i) g' v = some (.error e, v') := by
      rw [Nat.zero_add]
      simp [LiveLoop.turns, LiveLoop.outcome, LiveLoop.round, reads, there, called, closed]
    rw [last.1] at calls
    rw [← calls]
    exact LiveLoop.stops_of_outcome runs (ended.trans last.2)

section Copy

variable {ω : Type} {visit : α → ω → Except Fault Unit × ω}

/-- The calls for a list of elements from position `i` on, one for each, up to and with the first that
fails. -/
def copyTurns (visit : α → ω → Except Fault Unit × ω) : (i : Nat) → List α → ω → List (Turn ω α Unit)
  | _, [], _ => []
  | i, a :: items, w =>
    match visit a w with
    | (.ok (), u) => ⟨i, a, w, .ok (), u⟩ :: copyTurns visit (i + 1) items u
    | (.error e, u) => [⟨i, a, w, .error e, u⟩]

def copyVisits (seq : Access ω α) (visit : α → ω → Except Fault Unit × ω) (w : ω) :
    List (Turn ω α Unit) :=
  match seq.readAll w with
  | .ok items => copyTurns visit 0 items w
  | .error _ => []

/-- The calls are made one after the other, the first in `w`, each in the world that the one before it has
left, and the last leaves `w'`. -/
def Threaded (visit : α → ω → Except Fault Unit × ω) (w : ω) (turns : List (Turn ω α Unit)) (w' : ω) :
    Prop :=
  turns.map Turn.before ++ [w'] = w :: turns.map Turn.after ∧
    ∀ turn ∈ turns, visit turn.item turn.before = (turn.result, turn.after)

/-- How the loop over a copy of `items` ends: with all of its calls, or with the first that fails. -/
inductive CopyEnd (items : List α) : List (Turn ω α Unit) → Except Fault Unit → Prop where
  | all {turns : List (Turn ω α Unit)} : turns.map Turn.item = items →
      (∀ turn ∈ turns, turn.result = .ok ()) → CopyEnd items turns (.ok ())
  | failed (before : List (Turn ω α Unit)) (turn : Turn ω α Unit) {e : Fault} :
      (before ++ [turn]).map Turn.item <+: items → (∀ turn ∈ before, turn.result = .ok ()) →
      turn.result = .error e → CopyEnd items (before ++ [turn]) (.error e)

theorem CopyEnd.cons {items : List α} {turns : List (Turn ω α Unit)} {r : Except Fault Unit}
    (ending : CopyEnd items turns r) (turn : Turn ω α Unit) (good : turn.result = .ok ()) :
    CopyEnd (turn.item :: items) (turn :: turns) r := by
  cases ending with
  | all shown others => exact .all (by simp [shown]) (by simpa [good] using others)
  | failed before last shown others bad =>
    exact .failed (turn :: before) last (by simpa using shown) (by simpa [good] using others) bad

theorem map_position_copyTurns (items : List α) : ∀ (i : Nat) (w : ω),
    (copyTurns visit i items w).map Turn.position = List.range' i (copyTurns visit i items w).length := by
  induction items with
  | nil => simp [copyTurns]
  | cons a items ih =>
    intro i w
    rw [copyTurns]
    rcases visit a w with ⟨e | _, u⟩
    · simp
    · simp [ih, List.range'_succ]

variable (visit) in
theorem forM_copyTurns {κ : Type} {ρ : κ → Type} (items : List α) : ∀ (i : Nat) (w : ω), ∃ r w',
    (items.forM fun a => (Script.step (visit a) : Script ω ρ Unit)) w = .finish r w' ∧
      Threaded visit w (copyTurns visit i items w) w' ∧ CopyEnd items (copyTurns visit i items w) r := by
  induction items with
  | nil => exact fun i w => ⟨.ok (), w, rfl, ⟨rfl, by simp [copyTurns]⟩, .all rfl (by simp [copyTurns])⟩
  | cons a items ih =>
    intro i w
    rw [copyTurns]
    rcases called : visit a w with ⟨e | _, u⟩
    · refine ⟨.error e, u, Script.step_bind_error called _, ⟨rfl, ?_⟩, ?_⟩
      · simpa using called
      · exact .failed [] _ (by simp) (by simp) rfl
    · obtain ⟨r, w', code, ⟨linked, calls⟩, ending⟩ := ih (i + 1) u
      refine ⟨r, w', (Script.step_bind called _).trans code, ⟨?_, ?_⟩, ?_⟩
      · simpa using linked
      · simpa [called] using calls
      · exact ending.cons ⟨i, a, w, .ok (), u⟩ rfl

namespace CopyEnd

variable {items : List α} {turns : List (Turn ω α Unit)} {r : Except Fault Unit}

theorem isPrefix (ending : CopyEnd items turns r) : turns.map Turn.item <+: items := by
  cases ending with
  | all shown _ => rw [shown]
  | failed _ _ shown => exact shown

theorem ok_iff (ending : CopyEnd items turns r) :
    r = .ok () ↔ ∀ turn ∈ turns, turn.result = .ok () := by
  cases ending with
  | all _ good => exact ⟨fun _ => good, fun _ => rfl⟩
  | failed _ _ _ _ bad => simp [bad]

theorem error_of_mem (ending : CopyEnd items turns r) {turn : Turn ω α Unit} {e : Fault}
    (mem : turn ∈ turns) (fails : turn.result = .error e) :
    r = .error e ∧ ∃ before, turns = before ++ [turn] := by
  cases ending with
  | all _ good =>
    rw [good turn mem] at fails
    cases fails
  | failed before last _ good bad =>
    rcases List.mem_append.mp mem with earlier | here
    · rw [good turn earlier] at fails
      cases fails
    · obtain rfl : turn = last := by simpa using here
      rw [bad] at fails
      exact ⟨fails, before, rfl⟩

/-- All elements have their call exactly if none of the calls before the last element fails. -/
theorem map_item_eq_iff (ending : CopyEnd items turns r)
    (positions : turns.map Turn.position = List.range turns.length) :
    turns.map Turn.item = items ↔
      ∀ turn ∈ turns, turn.position + 1 < items.length → turn.result = .ok () := by
  cases ending with
  | all shown good => exact ⟨fun _ turn mem _ => good turn mem, fun _ => shown⟩
  | failed before last shown good bad =>
    have place : last.position = before.length := by
      have here := congrArg (·[before.length]?) positions
      simpa using here
    constructor
    · rintro rfl turn mem early
      rcases List.mem_append.mp mem with earlier | here
      · exact good turn earlier
      · obtain rfl : turn = last := by simpa using here
        simp at early
        omega
    · intro early
      have late : ¬ last.position + 1 < items.length := by
        intro less
        have := early last (by simp) less
        rw [bad] at this
        cases this
      refine shown.eq_of_length_le ?_
      simp
      omega

end CopyEnd

variable {seq : Access ω α} {w : ω}

theorem forEach_of_forM {items : List α} (all : seq.readAll w = .ok items) {r : Except Fault Unit} {w' : ω}
    (code : (items.forM fun a => (Script.step (visit a) : Script ω (fun _ : Nat => Unit) Unit)) w =
      .finish r w') {steps : Nat} (some : 1 ≤ steps) :
    forEach steps .snapshot seq visit w = .some (r, w') := by
  obtain ⟨steps, rfl⟩ : ∃ k, steps = k + 1 := ⟨steps - 1, by omega⟩
  have body : visitCopy seq (fun a => (Script.step (visit a) : Script ω (fun _ : Nat => Unit) Unit)) w =
      .finish r w' := (Script.read_bind all _).trans code
  simp only [forEach, Machine.run, body]
  rfl

variable (visit) in
theorem forEach_copy {items : List α} (all : seq.readAll w = .ok items) :
    ∃ r w', (∀ steps, 1 ≤ steps → forEach steps .snapshot seq visit w = some (r, w')) ∧
      Threaded visit w (copyVisits seq visit w) w' ∧ CopyEnd items (copyVisits seq visit w) r := by
  obtain ⟨r, w', code, made⟩ := forM_copyTurns (ρ := fun _ : Nat => Unit) visit items 0 w
  exact ⟨r, w', fun steps => forEach_of_forM all code, by simpa only [copyVisits, all] using made⟩

theorem forEach_copy_error {e : Fault} (lost : seq.readAll w = .error e) {steps : Nat}
    (some : 1 ≤ steps) : forEach steps .snapshot seq visit w = .some (.error e, w) := by
  obtain ⟨steps, rfl⟩ : ∃ k, steps = k + 1 := ⟨steps - 1, by omega⟩
  have body : visitCopy seq (fun a => (Script.step (visit a) : Script ω (fun _ : Nat => Unit) Unit)) w =
      .finish (.error e) w := by
    simp [visitCopy, Script.bind_apply, Script.read, lost]
  simp only [forEach, Machine.run, body]
  rfl

variable (seq visit w) in
theorem map_position_copyVisits :
    (copyVisits seq visit w).map Turn.position = List.range (copyVisits seq visit w).length := by
  rw [copyVisits, List.range_eq_range']
  cases seq.readAll w with
  | ok items => exact map_position_copyTurns items 0 w
  | error e => rfl

section Recording

variable {visit : α → World σ → Except Fault Unit × World σ}

theorem forM_recording {κ : Type} {ρ : κ → Type} (items : List α) : ∀ (i : Nat) (w : World σ)
    (noted : List (α × World σ)) {r : Except Fault Unit} {w' : World σ},
    (items.forM fun a => (Script.step (visit a) : Script (World σ) ρ Unit)) w = .finish r w' →
      (items.forM fun a => (Script.step (recording visit a) : Script _ ρ Unit)) (w.beside noted) =
        .finish r (w'.beside (noted ++ (copyTurns visit i items w).map Turn.made)) := by
  induction items with
  | nil =>
    intro i w noted r w' code
    cases code
    simp [copyTurns, Script.pure_apply]
  | cons a items ih =>
    intro i w noted r w' code
    have noting : recording visit a (w.beside noted) =
        ((visit a w).1, (visit a w).2.beside (noted ++ [(a, w)])) := rfl
    rw [copyTurns]
    rcases called : visit a w with ⟨e | _, u⟩
    · rw [called] at noting
      cases (Script.step_bind_error called _).symm.trans code
      exact Script.step_bind_error noting _
    · rw [called] at noting
      have rest := ih (i + 1) u (noted ++ [(a, w)]) ((Script.step_bind called _).symm.trans code)
      refine (Script.step_bind noting _).trans (rest.trans ?_)
      simp [Turn.made]

/-- A visit that records its calls finds `copyVisits` after a run over a copy. -/
theorem forEach_copy_recording (seq : Access (World σ) α) (w : World σ) {steps : Nat} (some : 1 ≤ steps) :
    forEach steps .snapshot seq.aside (recording visit) (w.beside []) =
      (forEach steps .snapshot seq visit w).map fun o =>
        (o.1, o.2.beside ((copyVisits seq visit w).map Turn.made)) := by
  rw [copyVisits]
  cases all : seq.readAll w with
  | error e =>
    have noted : seq.aside.readAll (w.beside ([] : List (α × World σ))) = .error e := all
    rw [forEach_copy_error all some, forEach_copy_error noted some]
    rfl
  | ok items =>
    have noted : seq.aside.readAll (w.beside ([] : List (α × World σ))) = .ok items := all
    obtain ⟨r, w', code, -⟩ := forM_copyTurns (ρ := fun _ : Nat => Unit) visit items 0 w
    rw [forEach_of_forM all code some, forEach_of_forM noted (forM_recording items 0 w [] code) some]
    rfl

end Recording

end Copy

/-- The loops over a sequence stop. A copy is visited element by element up to the first call that fails,
so that all elements have their call unless one fails before the last of them; nothing that the calls do
changes this. A live loop stops as `LiveBounds` says. -/
theorem loops_stop [DecidableEq α] (seq : Access (World σ) α) (listed : seq.Listed) (w : World σ) :
    (∀ (visit : α → World σ → Except Fault Unit × World σ) (items : List α),
      seq.readAll w = .ok items →
      let turns := copyVisits seq visit w
      ∃ r w', (∀ steps, 1 ≤ steps → forEach steps .snapshot seq visit w = some (r, w')) ∧
        Threaded visit w turns w' ∧ turns.map Turn.position = List.range turns.length ∧
        turns.map Turn.item <+: items ∧
        (turns.map Turn.item = items ↔
          ∀ turn ∈ turns, turn.position + 1 < items.length → turn.result = .ok ()) ∧
        (r = .ok () ↔ ∀ turn ∈ turns, turn.result = .ok ()) ∧
        ∀ turn ∈ turns, ∀ e, turn.result = .error e →
          r = .error e ∧ ∃ before, turns = before ++ [turn]) ∧
    (∀ (visit : α → World σ → Except Fault Unit × World σ) (e : Fault), seq.readAll w = .error e →
      copyVisits seq visit w = [] ∧
        ∀ steps, 1 ≤ steps → forEach steps .snapshot seq visit w = some (.error e, w)) ∧
    (∀ visit : α → World σ → Except Fault Unit × World σ,
      LiveBounds seq (visiting seq visit) () w fun steps => forEach steps .live seq visit w) ∧
    ∀ replace : α → World σ → Except Fault α × World σ,
      LiveBounds seq (replacing seq replace) 0 w fun steps => replaceEach steps seq replace w := by
  refine ⟨fun visit items all => ?_, fun visit e lost => ?_, fun visit => ?_, fun replace => ?_⟩
  · obtain ⟨r, w', runs, threaded, ending⟩ := forEach_copy visit all
    have positions := map_position_copyVisits visit seq w
    exact ⟨r, w', runs, threaded, positions, ending.isPrefix, ending.map_item_eq_iff positions,
      ending.ok_iff, fun turn mem e => ending.error_of_mem mem⟩
  · exact ⟨by simp only [copyVisits, lost], fun steps => forEach_copy_error lost⟩
  · exact liveBounds_of_walks (walks_visiting listed visit) (fun _ _ => rfl)
      fun rounds o ended => forEach_of_outcome ended
  · exact liveBounds_of_walks (walks_replacing listed replace) (fun _ _ => rfl)
      fun rounds o ended => replaceEach_of_outcome ended

def refusing (place : Option NodeId) (w : World Unit) : Except Fault Unit × World Unit :=
  (if place = some ⟨2⟩ then .error (.noFixedPoint 3) else .ok (), w)

theorem loops_stop_growingBehind :
    blockLane.Listed ∧
      blockLane.readAll (blockOf [⟨1⟩, ⟨2⟩]) = .ok [some ⟨1⟩, some ⟨2⟩] ∧
      (∀ rounds, Inserting blockLane 1 (visits blockLane growingBehind rounds (blockOf [⟨1⟩, ⟨2⟩]))) ∧
      (∃ turns o, turns.length ≤ 2 + 1 ∧ (visiting blockLane growingBehind).Stops
        (fun steps => forEach steps .live blockLane growingBehind (blockOf [⟨1⟩, ⟨2⟩])) ()
        (blockOf [⟨1⟩, ⟨2⟩]) turns o) ∧
      ∃ r w', (∀ steps, 1 ≤ steps →
          forEach steps .snapshot blockLane growingBehind (blockOf [⟨1⟩, ⟨2⟩]) = some (r, w')) ∧
        Threaded growingBehind (blockOf [⟨1⟩, ⟨2⟩])
          (copyVisits blockLane growingBehind (blockOf [⟨1⟩, ⟨2⟩])) w' := by
  have listed : blockLane.Listed := Access.lane_listed .block ⟨0⟩ 0
  have inserting : ∀ rounds,
      Inserting blockLane 1 (visits blockLane growingBehind rounds (blockOf [⟨1⟩, ⟨2⟩])) := by
    have first : InsertsAtMost blockLane 1
        ⟨0, some ⟨1⟩, blockOf [⟨1⟩, ⟨2⟩], .ok (), blockOf [⟨1⟩, ⟨3⟩, ⟨2⟩]⟩ := by
      rintro _ _ ⟨⟩ ⟨⟩
      have edited : Edited 1 [some ⟨1⟩, some ⟨2⟩] ([some ⟨1⟩, some ⟨2⟩].insertIdx 1 (some (NodeId.mk 3))) :=
        .insert _ (.refl _) (by decide)
      exact ⟨1, Nat.le_refl _, edited⟩
    have other : ∀ i place, InsertsAtMost blockLane 0
        ⟨i, place, blockOf [⟨1⟩, ⟨3⟩, ⟨2⟩], .ok (), blockOf [⟨1⟩, ⟨3⟩, ⟨2⟩]⟩ := by
      rintro i place _ _ ⟨⟩ ⟨⟩
      exact ⟨0, Nat.le_refl _, .refl _⟩
    intro rounds
    match rounds with
    | 0 => exact .nil
    | 1 => exact .cons first (N := 0) .nil
    | 2 => exact .cons first (.cons (other 1 _) (N := 0) .nil)
    | 3 => exact .cons first (.cons (other 1 _) (.cons (other 2 _) (N := 0) .nil))
    | more + 4 =>
      rw [visits, Nat.add_comm, LiveLoop.turns_of_outcome 4 (o := (.ok (), blockOf [⟨1⟩, ⟨3⟩, ⟨2⟩])) rfl]
      exact .cons first (.cons (other 1 _) (.cons (other 2 _) (N := 0) .nil))
  obtain ⟨copies, -, live, -⟩ := loops_stop blockLane listed (blockOf [⟨1⟩, ⟨2⟩])
  obtain ⟨r, w', runs, threaded, -⟩ := copies growingBehind _ rfl
  exact ⟨listed, rfl, inserting, (live growingBehind).bounded _ 1 rfl inserting, r, w', runs, threaded⟩

theorem copyVisits_refusing :
    forEach 1 .snapshot blockLane refusing (blockOf [⟨1⟩, ⟨2⟩]) =
        some (.error (.noFixedPoint 3), blockOf [⟨1⟩, ⟨2⟩]) ∧
      blockLane.readAll (blockOf [⟨1⟩, ⟨2⟩]) = .ok [some ⟨1⟩, some ⟨2⟩] ∧
      ¬ ((copyVisits blockLane refusing (blockOf [⟨1⟩, ⟨2⟩])).map Turn.item = [some ⟨1⟩, some ⟨2⟩] ↔
        ∀ turn ∈ copyVisits blockLane refusing (blockOf [⟨1⟩, ⟨2⟩]), turn.result = .ok ()) := by
  refine ⟨rfl, rfl, ?_⟩
  decide

end Sequence

end ProgramTree
