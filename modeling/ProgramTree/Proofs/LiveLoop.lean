import ProgramTree.Proofs.Conduct

/-!
Live loops and the calls that they make. A live loop reads the element at its position, calls a function
for it, does something with the answer and goes on to the next position. `LiveLoop` leaves these parts
open. Its rounds have no other memory than the position and one value that is carried along, so a loop
can be followed call by call (`LiveLoop.turns`) without the machine that runs it. The two live loops over
a sequence are of this kind (`Sequence.visiting_runsOn`, `Sequence.replacing_runsOn`), and a function that
records its calls finds these turns when the machine has run it (`Sequence.forEach_recording`,
`Sequence.replaceEach_recording`).
-/

namespace ProgramTree

/-- One call that a loop makes: the position and the element it is made for, the world it is made in, and
its result with the world that it leaves. -/
structure Turn (ω α β : Type) where
  position : Nat
  item : α
  before : ω
  result : Except Fault β
  after : ω

def Turn.made {ω α β : Type} (turn : Turn ω α β) : α × ω :=
  (turn.item, turn.before)

structure LiveLoop (ω α β γ : Type) where
  read : Nat → ω → Except Fault (Option α)
  call : α → ω → Except Fault β × ω
  /-- What the loop does itself with the answer for an element, and the value to go on with. -/
  close : Nat → α → β → γ → ω → Except Fault γ × ω

namespace LiveLoop

variable {ω α β γ κ : Type} (l : LiveLoop ω α β γ)

/-- One round: the call that is made, if there is one, and either the value and the world to go on with
or the end of the loop. -/
def round (i : Nat) (g : γ) (w : ω) :
    Option (Turn ω α β) × ((γ × ω) ⊕ (Except Fault γ × ω)) :=
  match l.read i w with
  | .error e => (none, .inr (.error e, w))
  | .ok none => (none, .inr (.ok g, w))
  | .ok (some a) =>
    match l.call a w with
    | (.error e, u) => (some ⟨i, a, w, .error e, u⟩, .inr (.error e, u))
    | (.ok b, u) =>
      (some ⟨i, a, w, .ok b, u⟩, match l.close i a b g u with
        | (.ok g, v) => .inl (g, v)
        | (.error e, v) => .inr (.error e, v))

inductive Step (i : Nat) (g : γ) (w : ω) :
    Option (Turn ω α β) × ((γ × ω) ⊕ (Except Fault γ × ω)) → Prop where
  | unread {e : Fault} : l.read i w = .error e → Step i g w (none, .inr (.error e, w))
  | past : l.read i w = .ok none → Step i g w (none, .inr (.ok g, w))
  | failed {a : α} {e : Fault} {u : ω} : l.read i w = .ok (some a) → l.call a w = (.error e, u) →
      Step i g w (some ⟨i, a, w, .error e, u⟩, .inr (.error e, u))
  | lost {a : α} {b : β} {e : Fault} {u v : ω} : l.read i w = .ok (some a) → l.call a w = (.ok b, u) →
      l.close i a b g u = (.error e, v) → Step i g w (some ⟨i, a, w, .ok b, u⟩, .inr (.error e, v))
  | next {a : α} {b : β} {g' : γ} {u v : ω} : l.read i w = .ok (some a) → l.call a w = (.ok b, u) →
      l.close i a b g u = (.ok g', v) → Step i g w (some ⟨i, a, w, .ok b, u⟩, .inl (g', v))

theorem step_round (i : Nat) (g : γ) (w : ω) : l.Step i g w (l.round i g w) := by
  unfold round
  rcases reads : l.read i w with e | _ | a
  · exact .unread reads
  · exact .past reads
  · rcases called : l.call a w with ⟨e | b, u⟩
    · simp only [called]
      exact .failed reads called
    · rcases closed : l.close i a b g u with ⟨e | g', v⟩ <;> simp only [called, closed]
      · exact .lost reads called closed
      · exact .next reads called closed

/-- The calls from position `i` on, in at most so many rounds. -/
def turns : (rounds i : Nat) → γ → ω → List (Turn ω α β)
  | 0, _, _, _ => []
  | rounds + 1, i, g, w =>
    match l.round i g w with
    | (turn, .inl (g, v)) => turn.toList ++ turns rounds (i + 1) g v
    | (turn, .inr _) => turn.toList

/-- The end of the loop from position `i` on, if it comes within so many rounds. -/
def outcome : (rounds i : Nat) → γ → ω → Option (Except Fault γ × ω)
  | 0, _, _, _ => none
  | rounds + 1, i, g, w =>
    match l.round i g w with
    | (_, .inl (g, v)) => outcome rounds (i + 1) g v
    | (_, .inr ending) => some ending

section Machine

/-- The machine takes a round for each key, and calls the next one in the end. -/
def RunsOn (key : Nat → γ → κ) (body : κ → Script ω (fun _ : κ => γ) γ) : Prop :=
  ∀ i g w, body (key i g) w = match (l.round i g w).2 with
    | .inl (g, v) => .call (key (i + 1) g) v .finish
    | .inr (r, v) => .finish r v

inductive Passing {goal : κ} : {c : κ} → Stack ω (fun _ : κ => γ) goal c → Prop where
  | done : Passing .done
  | push {c d : κ} {rest : Stack ω (fun _ : κ => γ) goal d} :
      Passing rest → Passing (.push c .finish rest)

variable {l} {key : Nat → γ → κ} {body : κ → Script ω (fun _ : κ => γ) γ}

theorem Passing.finish {goal c : κ} {stack : Stack ω (fun _ : κ => γ) goal c} (passing : Passing stack)
    {steps : Nat} {r : Except Fault γ} {w : ω} {o : Except Fault γ × ω}
    (done : Machine.finish body steps ⟨.finish r w, stack⟩ = some o) : o = (r, w) := by
  induction passing generalizing steps with
  | done =>
    cases steps with
    | zero => cases done
    | succ steps => exact (Option.some.inj done).symm
  | push _ ih =>
    cases steps with
    | zero => cases done
    | succ steps => exact ih done

theorem RunsOn.outcome_of_finish (runs : l.RunsOn key body) {goal : κ} (steps : Nat) :
    ∀ {i : Nat} {g : γ} {w : ω} {stack : Stack ω (fun _ : κ => γ) goal (key i g)}
      {o : Except Fault γ × ω}, Passing stack →
      Machine.finish body steps ⟨body (key i g) w, stack⟩ = some o → l.outcome steps i g w = some o := by
  induction steps with
  | zero => exact fun _ done => nomatch done
  | succ steps ih =>
    intro i g w stack o passing done
    rw [runs i g w] at done
    rw [outcome]
    generalize l.round i g w = step at done ⊢
    rcases step with ⟨turn, ⟨g', v⟩ | ⟨r, v⟩⟩
    · exact ih (.push passing) done
    · exact congrArg some (passing.finish done).symm

theorem RunsOn.yields (runs : l.RunsOn key body) (rounds : Nat) :
    ∀ {i : Nat} {g : γ} {w v : ω} {r : Except Fault γ}, l.outcome rounds i g w = some (r, v) →
      ∃ past, Machine.Yields body (body (key i g) w) past r v := by
  induction rounds with
  | zero => exact fun done => nomatch done
  | succ rounds ih =>
    intro i g w v r done
    rw [runs i g w]
    rw [outcome] at done
    generalize l.round i g w = step at done ⊢
    rcases step with ⟨turn, ⟨g', u⟩ | ⟨r', u⟩⟩
    · obtain ⟨past, yields⟩ := ih done
      exact ⟨_, .called yields (.finished r v)⟩
    · cases done
      exact ⟨[], .finished r v⟩

/-- What the machine makes of the loop. -/
theorem RunsOn.run (runs : l.RunsOn key body) {i : Nat} {g : γ} {w : ω} {o : Except Fault γ × ω} :
    (∀ steps, Machine.run body steps (key i g) w = some o → l.outcome steps i g w = some o) ∧
      ∀ rounds, l.outcome rounds i g w = some o →
        ∃ enough, ∀ steps, enough ≤ steps → Machine.run body steps (key i g) w = some o := by
  constructor
  · exact fun steps => runs.outcome_of_finish steps .done
  · intro rounds ended
    obtain ⟨r, v⟩ := o
    obtain ⟨past, yields⟩ := runs.yields rounds ended
    obtain ⟨enough, done, -⟩ := yields.run
    exact ⟨enough, fun steps more => Machine.run_mono more done⟩

end Machine

section Rounds

variable {l} {rounds i : Nat} {g g' : γ} {w w' : ω}

/-- The loop ends well past the end of the sequence, and before that with a call in each round. -/
theorem outcome_ok_cases (done : l.outcome (rounds + 1) i g w = some (.ok g', w')) :
    (l.read i w = .ok none ∧ g' = g ∧ w' = w ∧ l.turns (rounds + 1) i g w = []) ∨
    ∃ a b u g₁ v, l.read i w = .ok (some a) ∧ l.call a w = (.ok b, u) ∧
      l.close i a b g u = (.ok g₁, v) ∧ l.outcome rounds (i + 1) g₁ v = some (.ok g', w') ∧
      l.turns (rounds + 1) i g w = ⟨i, a, w, .ok b, u⟩ :: l.turns rounds (i + 1) g₁ v := by
  rw [outcome] at done
  rw [turns]
  have step := l.step_round i g w
  generalize l.round i g w = result at done step ⊢
  cases step with
  | unread _ | failed _ _ | lost _ _ _ => simp at done
  | past reads => simp_all
  | next reads called closed => exact .inr ⟨_, _, _, _, _, reads, called, closed, done, rfl⟩

theorem mem_turns_one {a : α} {r : Except Fault β} {u : ω} (reads : l.read i w = .ok (some a))
    (called : l.call a w = (r, u)) : ⟨i, a, w, r, u⟩ ∈ l.turns 1 i g w := by
  cases r with
  | error e => simp [turns, round, reads, called]
  | ok b => rcases closed : l.close i a b g u with ⟨e | g', v⟩ <;> simp [turns, round, reads, called, closed]

theorem turns_succ {a : α} {b : β} {u v : ω} (reads : l.read i w = .ok (some a))
    (called : l.call a w = (.ok b, u)) (closed : l.close i a b g u = (.ok g', v)) (rounds : Nat) :
    l.turns (rounds + 1) i g w = ⟨i, a, w, .ok b, u⟩ :: l.turns rounds (i + 1) g' v ∧
      l.outcome (rounds + 1) i g w = l.outcome rounds (i + 1) g' v := by
  simp [turns, outcome, round, reads, called, closed]

theorem turns_past (past : l.read i w = .ok none) (rounds : Nat) :
    l.turns (rounds + 1) i g w = [] ∧ l.outcome (rounds + 1) i g w = some (.ok g, w) := by
  simp [turns, outcome, round, past]

/-- The calls are those of the loop's function, each for the element at its position. -/
theorem turns_called (rounds : Nat) : ∀ {i : Nat} {g : γ} {w : ω}, ∀ turn ∈ l.turns rounds i g w,
    l.read turn.position turn.before = .ok (some turn.item) ∧
      l.call turn.item turn.before = (turn.result, turn.after) := by
  induction rounds with
  | zero => simp [turns]
  | succ rounds ih =>
    intro i g w turn mem
    rw [turns] at mem
    have step := l.step_round i g w
    generalize l.round i g w = result at mem step
    cases step with
    | unread _ | past _ => simp at mem
    | failed reads called | lost reads called _ =>
      obtain rfl : turn = _ := by simpa using mem
      exact ⟨reads, called⟩
    | next reads called closed =>
      obtain rfl | later : turn = _ ∨ turn ∈ l.turns rounds (i + 1) _ _ := by simpa using mem
      · exact ⟨reads, called⟩
      · exact ih turn later

theorem map_position_turns (rounds : Nat) : ∀ {i : Nat} {g : γ} {w : ω},
    (l.turns rounds i g w).map Turn.position = List.range' i (l.turns rounds i g w).length := by
  induction rounds with
  | zero => simp [turns]
  | succ rounds ih =>
    intro i g w
    rw [turns]
    have step := l.step_round i g w
    generalize l.round i g w = result at step ⊢
    cases step with
    | next reads called closed => simp [ih, List.range'_succ]
    | _ => simp

theorem mem_turns_of_outcome {turn : Turn ω α β} {o : Except Fault γ × ω} (enough : Nat) :
    ∀ {rounds i : Nat} {g : γ} {w : ω}, l.outcome enough i g w = some o →
      turn ∈ l.turns rounds i g w → turn ∈ l.turns enough i g w := by
  induction enough with
  | zero => exact fun ended => nomatch ended
  | succ enough ih =>
    intro rounds i g w ended mem
    cases rounds with
    | zero => simp [turns] at mem
    | succ rounds =>
      rw [turns] at mem ⊢
      rw [outcome] at ended
      have step := l.step_round i g w
      generalize l.round i g w = result at step ended mem ⊢
      cases step with
      | next _ _ _ =>
        rcases List.mem_append.mp mem with first | later
        · exact List.mem_append_left _ first
        · exact List.mem_append_right _ (ih ended later)
      | _ => exact mem

theorem le_position_of_mem {turn : Turn ω α β} (mem : turn ∈ l.turns rounds i g w) :
    i ≤ turn.position := by
  have there := List.mem_map_of_mem (f := Turn.position) mem
  rw [map_position_turns, List.mem_range'_1] at there
  exact there.1

end Rounds

section Notes

variable {ω' : Type} {l} {l' : LiveLoop ω' α β γ} {beside : ω → List (α × ω) → ω'}

/-- `l'` runs as `l` does, and notes beside the world the element of each call and the world that the
call is made in. -/
structure Notes (l' : LiveLoop ω' α β γ) (l : LiveLoop ω α β γ) (beside : ω → List (α × ω) → ω') :
    Prop where
  read : ∀ i w noted, l'.read i (beside w noted) = l.read i w
  call : ∀ a w noted, l'.call a (beside w noted) =
    ((l.call a w).1, beside (l.call a w).2 (noted ++ [(a, w)]))
  close : ∀ i a b g w noted, l'.close i a b g (beside w noted) =
    ((l.close i a b g w).1, beside (l.close i a b g w).2 noted)

theorem Notes.outcome_eq (notes : Notes l' l beside) (rounds : Nat) :
    ∀ {i : Nat} {g : γ} {w : ω} (noted : List (α × ω)),
      l'.outcome rounds i g (beside w noted) = (l.outcome rounds i g w).map fun o =>
        (o.1, beside o.2 (noted ++ (l.turns rounds i g w).map Turn.made)) := by
  induction rounds with
  | zero => exact fun _ => rfl
  | succ rounds ih =>
    intro i g w noted
    rw [outcome, outcome, turns]
    have step := l.step_round i g w
    generalize l.round i g w = result at step ⊢
    cases step with
    | unread reads | past reads => simp [round, notes.read, reads]
    | failed reads called => simp [round, notes.read, notes.call, reads, called, Turn.made]
    | lost reads called closed =>
      simp [round, notes.read, notes.call, notes.close, reads, called, closed, Turn.made]
    | next reads called closed =>
      simp [round, notes.read, notes.call, notes.close, reads, called, closed, Turn.made, ih]

end Notes

end LiveLoop

namespace Sequence

variable {ω σ α : Type}

def visiting (seq : Access ω α) (visit : α → ω → Except Fault Unit × ω) :
    LiveLoop ω α Unit Unit where
  read := seq.read
  call := visit
  close _ _ _ _ w := (.ok (), w)

def replacing [DecidableEq α] (seq : Access (World σ) α)
    (replace : α → World σ → Except Fault α × World σ) : LiveLoop (World σ) α α Nat where
  read := seq.read
  call := replace
  close i old new n w :=
    if new = old then (.ok n, w)
    else match seq.write i new w with
      | (.ok true, v) => (.ok (n + 1), v)
      | (.ok false, v) => (.ok n, v.note (.dropped i))
      | (.error e, v) => (.error e, v)

theorem visiting_runsOn (seq : Access ω α) (visit : α → ω → Except Fault Unit × ω) :
    (visiting seq visit).RunsOn (fun i _ => i)
      (visitFrom seq (fun a => Script.step (visit a)) Script.perform) := by
  intro i g w
  rw [visitFrom, LiveLoop.round]
  cases reads : seq.read i w with
  | error e => simp [visiting, Script.bind_apply, Script.read, reads]
  | ok place =>
    cases place with
    | none => simp [visiting, Script.bind_apply, Script.read, reads, Script.pure_apply]
    | some a =>
      rcases called : visit a w with ⟨e | _, u⟩ <;>
        simp [visiting, Script.bind_apply, Script.read, Script.step, Script.perform, reads, called]

theorem replacing_runsOn [DecidableEq α] (seq : Access (World σ) α)
    (replace : α → World σ → Except Fault α × World σ) :
    (replacing seq replace).RunsOn Prod.mk fun (i, n) =>
      replaceFrom seq (fun a => Script.step (replace a)) (fun j m => Script.perform (j, m)) i n := by
  intro i n w
  simp only [replaceFrom, LiveLoop.round, replacing]
  cases reads : seq.read i w with
  | error e => simp [Script.bind_apply, Script.read, reads]
  | ok place =>
    cases place with
    | none => simp [Script.bind_apply, Script.read, reads, Script.pure_apply]
    | some a =>
      rcases called : replace a w with ⟨e | b, u⟩
      · simp [Script.bind_apply, Script.read, Script.step, reads, called]
      · by_cases same : b = a
        · simp [Script.bind_apply, Script.read, Script.step, Script.perform, reads, called, same]
        · rcases written : seq.write i b u with ⟨e | there | there, v⟩ <;>
            simp [Script.bind_apply, Script.read, Script.step, Script.perform, Script.update, reads,
              called, same, written]

/-- The calls of a live visit, in at most so many rounds. -/
def visits (seq : Access ω α) (visit : α → ω → Except Fault Unit × ω) (rounds : Nat) (w : ω) :
    List (Turn ω α Unit) :=
  (visiting seq visit).turns rounds 0 () w

/-- The calls of a replacement, in at most so many rounds. -/
def replacements [DecidableEq α] (seq : Access (World σ) α)
    (replace : α → World σ → Except Fault α × World σ) (rounds : Nat) (w : World σ) :
    List (Turn (World σ) α α) :=
  (replacing seq replace).turns rounds 0 0 w

def keeping (visit : α → ω → Except Fault Unit × ω) (a : α) (w : ω) : Except Fault α × ω :=
  ((visit a w).1.map fun _ => a, (visit a w).2)

end Sequence

def Turn.visit {ω α β : Type} (turn : Turn ω α β) : Turn ω α Unit :=
  { turn with result := turn.result.map fun _ => () }

namespace Sequence

variable {σ α : Type} [DecidableEq α] {seq : Access (World σ) α}
  {visit : α → World σ → Except Fault Unit × World σ}

/-- A live visit is a replacement that keeps every element. -/
theorem visiting_round (i n : Nat) (w : World σ) :
    (visiting seq visit).round i () w =
      match (replacing seq (keeping visit)).round i n w with
      | (turn, .inl (_, v)) => (turn.map Turn.visit, .inl ((), v))
      | (turn, .inr (r, v)) => (turn.map Turn.visit, .inr (r.map fun _ => (), v)) := by
  unfold LiveLoop.round
  simp only [visiting, replacing, keeping]
  rcases seq.read i w with e | _ | a
  · rfl
  · rfl
  · rcases visited : visit a w with ⟨e | _, u⟩ <;> simp [visited, Turn.visit, Except.map]

theorem visiting_turns (rounds : Nat) : ∀ (i n : Nat) (w : World σ),
    (visiting seq visit).turns rounds i () w =
      ((replacing seq (keeping visit)).turns rounds i n w).map Turn.visit := by
  induction rounds with
  | zero => simp [LiveLoop.turns]
  | succ rounds ih =>
    intro i n w
    rw [LiveLoop.turns, LiveLoop.turns, visiting_round i n w]
    rcases (replacing seq (keeping visit)).round i n w with ⟨turn, ⟨m, v⟩ | ⟨r, v⟩⟩
    · cases turn <;> simp [ih (i + 1) m v]
    · cases turn <;> simp

theorem visiting_outcome (rounds : Nat) : ∀ (i n : Nat) (w : World σ),
    (visiting seq visit).outcome rounds i () w =
      ((replacing seq (keeping visit)).outcome rounds i n w).map fun o =>
        (o.1.map fun _ => (), o.2) := by
  induction rounds with
  | zero => simp [LiveLoop.outcome]
  | succ rounds ih =>
    intro i n w
    rw [LiveLoop.outcome, LiveLoop.outcome, visiting_round i n w]
    rcases (replacing seq (keeping visit)).round i n w with ⟨turn, ⟨m, v⟩ | ⟨r, v⟩⟩
    · exact ih (i + 1) m v
    · rfl

section Runs

variable {ω σ α : Type} {steps rounds : Nat}

theorem outcome_of_forEach {seq : Access ω α} {visit : α → ω → Except Fault Unit × ω} {w : ω}
    {o : Except Fault Unit × ω} (done : forEach steps .live seq visit w = some o) :
    (visiting seq visit).outcome steps 0 () w = some o :=
  (visiting_runsOn seq visit).run.1 steps done

theorem forEach_of_outcome {seq : Access ω α} {visit : α → ω → Except Fault Unit × ω} {w : ω}
    {o : Except Fault Unit × ω} (ended : (visiting seq visit).outcome rounds 0 () w = some o) :
    ∃ enough, ∀ steps, enough ≤ steps → forEach steps .live seq visit w = some o :=
  (visiting_runsOn seq visit).run.2 rounds ended

variable [DecidableEq α] {seq : Access (World σ) α}
  {replace : α → World σ → Except Fault α × World σ} {w : World σ} {o : Except Fault Nat × World σ}

theorem outcome_of_replaceEach (done : replaceEach steps seq replace w = some o) :
    (replacing seq replace).outcome steps 0 0 w = some o :=
  (replacing_runsOn seq replace).run.1 steps done

theorem replaceEach_of_outcome (ended : (replacing seq replace).outcome rounds 0 0 w = some o) :
    ∃ enough, ∀ steps, enough ≤ steps → replaceEach steps seq replace w = some o :=
  (replacing_runsOn seq replace).run.2 rounds ended

end Runs

end Sequence

section Recording

variable {σ ν α β : Type} {steps : Nat}

def World.beside (w : World σ) (notes : ν) : World (σ × ν) :=
  ⟨w.arena, w.log, (w.state, notes)⟩

def World.bare (w : World (σ × ν)) : World σ :=
  ⟨w.arena, w.log, w.state.1⟩

def Access.aside (seq : Access (World σ) α) : Access (World (σ × ν)) α where
  read i w := seq.read i w.bare
  readAll w := seq.readAll w.bare
  write i a w := ((seq.write i a w.bare).1, (seq.write i a w.bare).2.beside w.state.2)

theorem Access.lane_aside (t : Tag) (owner : NodeId) (k : Nat) :
    (Access.lane t owner k : Access (World σ) (Option NodeId)).aside =
      (Access.lane t owner k : Access (World (σ × ν)) (Option NodeId)) := by
  unfold aside lane
  congr
  funext i place w
  cases place with
  | none => rfl
  | some child =>
    simp only [World.fill, World.bare]
    cases w.arena.get t owner with
    | error e => rfl
    | ok record => cases there : record.place? t.fields k i <;> simp [there, World.beside]

namespace Sequence

/-- Calls `f`, and notes beside the state what it is called with. -/
def recording (f : α → World σ → Except Fault β × World σ) (a : α)
    (w : World (σ × List (α × World σ))) : Except Fault β × World (σ × List (α × World σ)) :=
  ((f a w.bare).1, (f a w.bare).2.beside (w.state.2 ++ [(a, w.bare)]))

theorem visiting_notes (seq : Access (World σ) α) (visit : α → World σ → Except Fault Unit × World σ) :
    (visiting seq.aside (recording visit)).Notes (visiting seq visit) World.beside where
  read _ _ _ := rfl
  call _ _ _ := rfl
  close _ _ _ _ _ _ := rfl

theorem replacing_notes [DecidableEq α] (seq : Access (World σ) α)
    (replace : α → World σ → Except Fault α × World σ) :
    (replacing seq.aside (recording replace)).Notes (replacing seq replace) World.beside where
  read _ _ _ := rfl
  call _ _ _ := rfl
  close i old new n w noted := by
    by_cases same : new = old
    · simp [replacing, same]
    · have written : (seq.aside (ν := List (α × World σ))).write i new (w.beside noted) =
        ((seq.write i new w).1, (seq.write i new w).2.beside noted) := rfl
      simp only [replacing, if_neg same, written]
      rcases seq.write i new w with ⟨e | there | there, v⟩ <;> rfl

/-- A visit that records its calls finds `visits`: they are the calls that the live loop makes. -/
theorem forEach_recording {seq : Access (World σ) α}
    {visit : α → World σ → Except Fault Unit × World σ} {w w' : World σ} {r : Except Fault Unit}
    (done : forEach steps .live seq visit w = some (r, w')) :
    ∃ enough, ∀ more, enough ≤ more → forEach more .live seq.aside (recording visit) (w.beside []) =
      some (r, w'.beside ((visits seq visit steps w).map Turn.made)) := by
  have ended := (visiting_notes seq visit).outcome_eq steps (i := 0) (g := ()) (w := w) []
  rw [outcome_of_forEach done] at ended
  exact forEach_of_outcome ended

/-- A replacement that records its calls finds `replacements`. -/
theorem replaceEach_recording [DecidableEq α] {seq : Access (World σ) α}
    {replace : α → World σ → Except Fault α × World σ} {w w' : World σ} {r : Except Fault Nat}
    (done : replaceEach steps seq replace w = some (r, w')) :
    ∃ enough, ∀ more, enough ≤ more → replaceEach more seq.aside (recording replace) (w.beside []) =
      some (r, w'.beside ((replacements seq replace steps w).map Turn.made)) := by
  have ended := (replacing_notes seq replace).outcome_eq steps (i := 0) (g := 0) (w := w) []
  rw [outcome_of_replaceEach done] at ended
  exact replaceEach_of_outcome ended

end Sequence

end Recording

/-- The sequence is a list that the world stores beside the log: reading a position looks it up there,
and writing an element that fits sets it there, if the list reaches that far. -/
structure Access.Lawful {σ α : Type} (seq : Access (World σ) α) (fits : α → Prop) : Prop where
  read : ∀ i w, seq.read i w = (seq.readAll w).map fun items => items[i]?
  note : ∀ w e, seq.readAll (w.note e) = seq.readAll w
  write : ∀ {i a w items}, fits a → seq.readAll w = .ok items → i < items.length →
    ∃ w', seq.write i a w = (.ok true, w') ∧ seq.readAll w' = .ok (items.set i a) ∧ w'.log = w.log
  beyond : ∀ {i a w items}, fits a → seq.readAll w = .ok items → items.length ≤ i →
    seq.write i a w = (.ok false, w)

theorem Node.places_fill (n : Node) (k i : Nat) (new : NodeId) :
    (n.fill k i new).places k = (n.places k).set i (some new) := by
  have filled : (n.fill k i new).places k = _ :=
    congrArg (fun lanes => lanes[k]?.getD []) (Record.children_fill n.tag.fields n.record k i new)
  rw [filled, places, List.getElem?_modify]
  cases (n.record.children n.tag.fields)[k]? <;> simp

theorem Access.lane_lawful {σ : Type} (t : Tag) (owner : NodeId) (k : Nat) :
    (Access.lane t owner k : Access (World σ) (Option NodeId)).Lawful fun place => place.isSome where
  read i w := by
    simp only [lane, World.place?, World.places]
    cases w.arena.get t owner with
    | error e => rfl
    | ok record =>
      simp only [Except.map, Record.place?_eq]
      cases (record.children t.fields)[k]? <;> rfl
  note w e := rfl
  write {i a w items} fits all less := by
    obtain ⟨child, rfl⟩ := Option.isSome_iff_exists.mp fits
    cases got : w.arena.get t owner with
    | error e => simp [lane, World.places, got, Except.map] at all
    | ok record =>
      obtain ⟨n, stored, rfl⟩ := Arena.node_of_get got
      obtain rfl : n.places k = items := Except.ok.inj ((World.places_of_node stored k).symm.trans all)
      have there : n.place? k i = some (n.places k)[i] := by
        rw [← Node.getElem?_places, List.getElem?_eq_getElem less]
      refine ⟨_, World.fill_of_node stored there child, ?_, rfl⟩
      have filled : (w.arena.put n.tag owner (n.fill k i child).record).node owner =
          .ok (n.fill k i child) := Arena.node_put_self stored
      exact (World.places_of_node (n := n.fill k i child) filled k).trans (by rw [Node.places_fill])
  beyond {i a w items} fits all more := by
    obtain ⟨child, rfl⟩ := Option.isSome_iff_exists.mp fits
    cases got : w.arena.get t owner with
    | error e => simp [lane, World.places, got, Except.map] at all
    | ok record =>
      obtain ⟨n, stored, rfl⟩ := Arena.node_of_get got
      obtain rfl : n.places k = items := Except.ok.inj ((World.places_of_node stored k).symm.trans all)
      have gone : n.place? k i = none := by
        rw [← Node.getElem?_places, List.getElem?_eq_none more]
      exact World.fill_of_none stored gone child

end ProgramTree
