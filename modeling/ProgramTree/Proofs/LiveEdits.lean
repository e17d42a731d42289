import ProgramTree.Proofs.LiveLoop

/-!
Sequences that are edited while a live loop walks them. Two kinds of edits are told apart. Calls may
rearrange what is ahead of the loop at will: then the loop leaves its answers behind it, each at the
position it was read from, and none is lost (`live_loops_of_leavesHead`). Or one call also changes what
is behind the loop, and the elements shift against the position: then the loop skips some elements or
comes by others again, and stores the answer of that call wherever its position is by then
(`live_loops_of_shifts`). A live visit is a replacement that keeps every element, so that each law is
proved for replacements and carried over.
-/

namespace ProgramTree.Sequence

variable {σ α β : Type}

/-- The call leaves the positions up to its own as they were. -/
def LeavesHead (seq : Access (World σ) α) (turn : Turn (World σ) α β) : Prop :=
  ∀ j ≤ turn.position, seq.read j turn.after = seq.read j turn.before

/-- From `w` to `w'`, all that is logged between the calls is what `notes` says for the call before. -/
def Noted (notes : Nat → List Event) (w : World σ) (turns : List (Turn (World σ) α β))
    (w' : World σ) : Prop :=
  turns.map (fun turn => turn.before.log) ++ [w'.log] =
    w.log :: turns.map fun turn => turn.after.log ++ notes turn.position

theorem Noted.nil (notes : Nat → List Event) (w : World σ) :
    Noted notes w ([] : List (Turn (World σ) α β)) w := rfl

theorem Noted.append {notes : Nat → List Event} {w v w' : World σ}
    {first later : List (Turn (World σ) α β)} (before : Noted notes w first v)
    (after : Noted notes v later w') : Noted notes w (first ++ later) w' := by
  unfold Noted at *
  rw [List.map_append, List.append_assoc, after, List.append_cons, before, List.map_append,
    List.cons_append]

theorem Noted.cons {notes : Nat → List Event} {turn : Turn (World σ) α β} {v w' : World σ}
    {turns : List (Turn (World σ) α β)} (log : v.log = turn.after.log ++ notes turn.position)
    (rest : Noted notes v turns w') : Noted notes turn.before (turn :: turns) w' := by
  simp_all [Noted]

/-- The call keeps the sequence and answers with its element. -/
def Still (seq : Access (World σ) α) (turn : Turn (World σ) α α) : Prop :=
  turn.result = .ok turn.item ∧ seq.readAll turn.after = seq.readAll turn.before

/-- The call at position `i` makes the sequence `s'` and answers with `new` of its element. All others keep
the sequence and answer with `same` of theirs. -/
def Shifts (seq : Access (World σ) α) (same : α → β) (i : Nat) (s' : List α) (new : α → β)
    (turn : Turn (World σ) α β) : Prop :=
  if turn.position = i then turn.result = .ok (new turn.item) ∧ seq.readAll turn.after = .ok s'
  else turn.result = .ok (same turn.item) ∧ seq.readAll turn.after = seq.readAll turn.before

def droppedAt (i : Nat) (drops : Prop) [Decidable drops] (p : Nat) : List Event :=
  if p = i ∧ drops then [.dropped i] else []

theorem droppedAt_of {i : Nat} {drops : Prop} [Decidable drops] (drop : drops) :
    droppedAt i drops = fun p => if p = i then [.dropped i] else [] := by
  funext p
  simp [droppedAt, drop]

theorem droppedAt_of_not {i : Nat} {drops : Prop} [Decidable drops] (stays : ¬ drops) :
    droppedAt i drops = fun _ => [] := by
  funext p
  simp [droppedAt, stays]

section Lawful

variable {seq : Access (World σ) α} {fits : α → Prop} (lawful : seq.Lawful fits)

include lawful

theorem readAll_of_read {i : Nat} {w : World σ} {place : Option α}
    (reads : seq.read i w = .ok place) : ∃ items, seq.readAll w = .ok items ∧ items[i]? = place := by
  rw [lawful.read] at reads
  cases all : seq.readAll w with
  | error e => simp [all, Except.map] at reads
  | ok items => exact ⟨items, rfl, by simpa [all, Except.map] using reads⟩

theorem read_of_readAll {w : World σ} {items : List α} (all : seq.readAll w = .ok items) (i : Nat) :
    seq.read i w = .ok items[i]? := by
  simp [lawful.read, all, Except.map]

theorem take_of_leavesHead {i : Nat} {a : α} {w u : World σ} {items : List α}
    {result : Except Fault β} (leaves : LeavesHead seq ⟨i, a, w, result, u⟩)
    (all : seq.readAll w = .ok items) (here : items[i]? = some a) :
    ∃ items', seq.readAll u = .ok items' ∧ items'[i]? = some a ∧ items'.take i = items.take i := by
  have same : ∀ j ≤ i, seq.read j u = .ok items[j]? := fun j le =>
    (leaves j le).trans (read_of_readAll lawful all j)
  obtain ⟨items', all', here'⟩ := readAll_of_read lawful (same i (Nat.le_refl i))
  refine ⟨items', all', here'.trans here, List.ext_getElem? fun j => ?_⟩
  rw [List.getElem?_take, List.getElem?_take]
  split
  · have at_j := (read_of_readAll lawful all' j).symm.trans (same j (by omega))
    exact Except.ok.inj at_j
  · rfl

variable [DecidableEq α] {replace : α → World σ → Except Fault α × World σ}

variable (replace) in
/-- What the replacing loop does with an answer, whatever has become of the sequence. -/
theorem close_replacing {i n : Nat} {old new : α} {u : World σ} {items : List α}
    (may : new ≠ old → fits new) (all : seq.readAll u = .ok items) :
    ∃ v, (replacing seq replace).close i old new n u =
        (.ok (if new = old ∨ items.length ≤ i then n else n + 1), v) ∧
      seq.readAll v = .ok (if new = old then items else items.set i new) ∧
      v.log = u.log ++ if new = old ∨ i < items.length then [] else [Event.dropped i] := by
  simp only [replacing]
  by_cases same : new = old
  · exact ⟨u, by simp [same], by simp [same, all], by simp [same]⟩
  · by_cases less : i < items.length
    · obtain ⟨v, written, all', log⟩ := lawful.write (may same) all less
      exact ⟨v, by simp [same, written, less], by simp [same, all'], by simp [less, log]⟩
    · have more : items.length ≤ i := Nat.le_of_not_lt less
      refine ⟨u.note (.dropped i), ?_, ?_, ?_⟩
      · simp [same, lawful.beyond (may same) all more, more]
      · simp [same, lawful.note, all, List.set_eq_of_length_le more]
      · simp [same, less, World.note]

variable (replace) in
theorem close_replacing_of_here {i n : Nat} {old new : α} {u : World σ} {items : List α}
    (may : new ≠ old → fits new) (all : seq.readAll u = .ok items) (here : items[i]? = some old) :
    ∃ v, (replacing seq replace).close i old new n u = (.ok (if new = old then n else n + 1), v) ∧
      seq.readAll v = .ok (items.set i new) ∧ v.log = u.log := by
  obtain ⟨less, rfl⟩ := List.getElem?_eq_some_iff.mp here
  obtain ⟨v, closed, stored, log⟩ :=
    close_replacing lawful replace (i := i) (n := n) may all
  refine ⟨v, by simpa [Nat.not_le_of_lt less] using closed, ?_, by simpa [less] using log⟩
  by_cases same : new = items[i] <;> simpa [same] using stored

/-- As long as the calls leave alone what is behind the loop, the loop leaves its answers there. -/
theorem outcome_of_leavesHead (rounds : Nat) : ∀ {i n n' : Nat} {w w' : World σ} {items : List α},
    seq.readAll w = .ok items → i ≤ items.length →
    (replacing seq replace).outcome rounds i n w = some (.ok n', w') →
    (∀ turn ∈ (replacing seq replace).turns rounds i n w, LeavesHead seq turn) →
    (∀ turn ∈ (replacing seq replace).turns rounds i n w,
      ∀ b, turn.result = .ok b → b ≠ turn.item → fits b) →
    ∃ answers : List α,
      ((replacing seq replace).turns rounds i n w).map Turn.result = answers.map .ok ∧
      seq.readAll w' = .ok (items.take i ++ answers) ∧
      Noted (fun _ => []) w ((replacing seq replace).turns rounds i n w) w' ∧
      n' = n + ((replacing seq replace).turns rounds i n w).countP fun turn =>
        turn.result ≠ .ok turn.item := by
  -- What is behind position `i` is final: no call touches it, and the loop writes at its own position only.
  induction rounds with
  | zero => exact fun _ _ done => nomatch done
  | succ rounds ih =>
    intro i n n' w w' items all le done leaves may
    rcases LiveLoop.outcome_ok_cases done with
      ⟨reads, rfl, rfl, none⟩ | ⟨a, b, u, n₁, v, reads, called, closed, rest, first⟩
    · have past : items[i]? = Option.none :=
        Except.ok.inj ((read_of_readAll lawful all i).symm.trans reads)
      have len : items.length = i := by
        have := List.getElem?_eq_none_iff.mp past
        omega
      refine ⟨[], ?_⟩
      rw [none, ← len]
      simp [all, Noted.nil]
    · rw [first] at leaves may ⊢
      have here : items[i]? = some a :=
        Except.ok.inj ((read_of_readAll lawful all i).symm.trans reads)
      obtain ⟨items', all', here', same⟩ :=
        take_of_leavesHead lawful (leaves _ List.mem_cons_self) all here
      obtain ⟨v', closed', stored, log⟩ := close_replacing_of_here lawful replace
        (n := n) (may _ List.mem_cons_self b rfl) all' here'
      obtain ⟨rfl, rfl⟩ : n₁ = (if b = a then n else n + 1) ∧ v = v' := by
        simpa using closed.symm.trans closed'
      have less : i < items'.length := (List.getElem?_eq_some_iff.mp here').choose
      have behind : (items'.set i b).take (i + 1) = items.take i ++ [b] := by
        simp [List.take_add_one, less, List.take_set_of_le, same]
      obtain ⟨answers, results, final, noted, count⟩ := ih stored
        (by rw [List.length_set]; exact less) rest
        (fun turn mem => leaves turn (List.mem_cons_of_mem _ mem))
        (fun turn mem => may turn (List.mem_cons_of_mem _ mem))
      refine ⟨b :: answers, ?_, ?_, ?_, ?_⟩
      · simp [results]
      · simp [final, behind]
      · exact Noted.cons (by simpa using log) noted
      · rw [count, List.countP_cons]
        by_cases kept : b = a
        · simp [kept]
        · simp [kept]
          omega

theorem replacements_of_leavesHead {rounds n : Nat} {w w' : World σ}
    (done : (replacing seq replace).outcome rounds 0 0 w = some (.ok n, w'))
    (leaves : ∀ turn ∈ replacements seq replace rounds w, LeavesHead seq turn)
    (may : ∀ turn ∈ replacements seq replace rounds w,
      ∀ b, turn.result = .ok b → b ≠ turn.item → fits b) :
    ∃ answers : List α, (replacements seq replace rounds w).map Turn.result = answers.map .ok ∧
      seq.readAll w' = .ok answers ∧ Noted (fun _ => []) w (replacements seq replace rounds w) w' ∧
      n = (replacements seq replace rounds w).countP fun turn => turn.result ≠ .ok turn.item := by
  obtain ⟨items, all⟩ : ∃ items, seq.readAll w = .ok items := by
    cases rounds with
    | zero => cases done
    | succ rounds =>
      rcases LiveLoop.outcome_ok_cases done with ⟨reads, _⟩ | ⟨_, _, _, _, _, reads, _⟩
      all_goals
        obtain ⟨items, all, _⟩ := readAll_of_read lawful reads
        exact ⟨items, all⟩
  obtain ⟨answers, results, final, noted, count⟩ :=
    outcome_of_leavesHead lawful rounds all (Nat.zero_le _) done leaves may
  exact ⟨answers, results, by simpa using final, noted, by simpa [replacements] using count⟩

theorem turns_of_still (notes : Nat → List Event) {n : Nat} {items : List α} (k : Nat) :
    ∀ {j : Nat} {w : World σ}, seq.readAll w = .ok items → j + k ≤ items.length →
    (∀ p, j ≤ p → p < j + k → notes p = []) →
    (∀ rounds, ∀ turn ∈ (replacing seq replace).turns rounds j n w,
      turn.position < j + k → Still seq turn) →
    ∃ first v, first.map Turn.item = (items.drop j).take k ∧ seq.readAll v = .ok items ∧
      Noted notes w first v ∧ ∀ rounds,
        (replacing seq replace).turns (k + rounds) j n w =
            first ++ (replacing seq replace).turns rounds (j + k) n v ∧
          (replacing seq replace).outcome (k + rounds) j n w =
            (replacing seq replace).outcome rounds (j + k) n v := by
  induction k with
  | zero =>
    intro j w all _ _ _
    exact ⟨[], w, by simp, all, .nil notes w, by simp⟩
  | succ k ih =>
    intro j w all within quiet still
    have less : j < items.length := by omega
    have reads : (replacing seq replace).read j w = .ok (some items[j]) := by
      rw [← List.getElem?_eq_getElem less]
      exact read_of_readAll lawful all j
    rcases called : replace items[j] w with ⟨result, u⟩
    obtain ⟨answered, same⟩ : Still seq ⟨j, items[j], w, result, u⟩ :=
      still 1 _ (LiveLoop.mem_turns_one reads called) (by simp)
    obtain rfl : result = .ok items[j] := answered
    have closed : (replacing seq replace).close j items[j] items[j] n u = (.ok n, u) := by
      simp [replacing]
    obtain ⟨first, v, shown, all', noted, onward⟩ := ih (same.trans all) (j := j + 1) (by omega)
      (fun p _ _ => quiet p (by omega) (by omega)) (fun rounds turn mem before =>
        still (rounds + 1) turn (by
          rw [(LiveLoop.turns_succ reads called closed rounds).1]
          exact List.mem_cons_of_mem _ mem) (by omega))
    refine ⟨⟨j, items[j], w, .ok items[j], u⟩ :: first, v, ?_, all', .cons ?_ noted, fun rounds => ?_⟩
    · rw [List.map_cons, shown, List.drop_eq_getElem_cons less, List.take_succ_cons]
    · simp [quiet j (by omega) (by omega)]
    · have next := LiveLoop.turns_succ reads called closed (k + rounds)
      rw [show k + 1 + rounds = k + rounds + 1 by omega, show j + (k + 1) = j + 1 + k by omega]
      simp [next, onward rounds]

theorem outcome_of_still (notes : Nat → List Event) {n j : Nat} {items : List α} {w : World σ}
    (all : seq.readAll w = .ok items) (quiet : ∀ p, j ≤ p → notes p = [])
    (still : ∀ rounds, ∀ turn ∈ (replacing seq replace).turns rounds j n w, Still seq turn) :
    ∃ turns v, turns.map Turn.item = items.drop j ∧ seq.readAll v = .ok items ∧
      Noted notes w turns v ∧ ∀ rounds, items.length - j < rounds →
        (replacing seq replace).turns rounds j n w = turns ∧
          (replacing seq replace).outcome rounds j n w = some (.ok n, v) := by
  by_cases within : j ≤ items.length
  · obtain ⟨turns, v, shown, all', noted, onward⟩ := turns_of_still lawful notes
      (items.length - j) all (by omega) (fun p le _ => quiet p le) (fun rounds turn mem _ => still rounds turn mem)
    refine ⟨turns, v, ?_, all', noted, fun rounds enough => ?_⟩
    · rw [shown, List.take_of_length_le (by simp)]
    · obtain ⟨more, rfl⟩ := Nat.exists_eq_add_of_lt enough
      have past : (replacing seq replace).read (j + (items.length - j)) v = .ok none := by
        rw [← List.getElem?_eq_none (l := items) (i := j + (items.length - j)) (by omega)]
        exact read_of_readAll lawful all' _
      rw [Nat.add_assoc]
      simp [onward, LiveLoop.turns_past past]
  · have past : (replacing seq replace).read j w = .ok none := by
      rw [← List.getElem?_eq_none (l := items) (i := j) (by omega)]
      exact read_of_readAll lawful all j
    refine ⟨[], w, ?_, all, .nil notes w, fun rounds enough => ?_⟩
    · simp [List.drop_eq_nil_of_le (Nat.le_of_not_le within)]
    · obtain ⟨more, rfl⟩ := Nat.exists_eq_add_of_lt enough
      simp [LiveLoop.turns_past past]

/-- The loop comes past one call that changes the sequence. -/
theorem outcome_of_shifts {pre post s' : List α} {x : α} (new : α → α) {w : World σ}
    (may : new x ≠ x → fits (new x)) (start : seq.readAll w = .ok (pre ++ [x] ++ post))
    (shifts : ∀ rounds, ∀ turn ∈ replacements seq replace rounds w,
      Shifts seq id pre.length s' new turn) :
    ∃ turns v, turns.map Turn.item = pre ++ [x] ++ s'.drop (pre.length + 1) ∧
      seq.readAll v = .ok (if new x = x then s' else s'.set pre.length (new x)) ∧
      Noted (droppedAt pre.length (new x ≠ x ∧ s'.length ≤ pre.length)) w turns v ∧
      ∀ rounds, pre.length + s'.length + 1 < rounds → replacements seq replace rounds w = turns ∧
        (replacing seq replace).outcome rounds 0 0 w =
          some (.ok (if new x = x ∨ s'.length ≤ pre.length then 0 else 1), v) := by
  -- The calls before the change.
  obtain ⟨first, v₁, shown₁, all₁, noted₁, onward₁⟩ := turns_of_still lawful
    (droppedAt pre.length (new x ≠ x ∧ s'.length ≤ pre.length)) pre.length (n := 0) (j := 0) start
    (by simp) (fun p _ _ => by simp [droppedAt]; omega) (fun rounds turn mem before => by
      have here := shifts rounds turn mem
      rwa [Shifts, if_neg (by omega)] at here)
  rw [Nat.zero_add] at onward₁
  -- The call that makes it.
  have reads : (replacing seq replace).read pre.length v₁ = .ok (some x) :=
    (read_of_readAll lawful all₁ _).trans (by simp)
  rcases called : replace x v₁ with ⟨result, u⟩
  obtain ⟨answered, all₂⟩ : result = .ok (new x) ∧ seq.readAll u = .ok s' := by
    have here := shifts (pre.length + 1) ⟨pre.length, x, v₁, result, u⟩ (by
      rw [replacements, (onward₁ 1).1]
      exact List.mem_append_right _ (LiveLoop.mem_turns_one reads called))
    rwa [Shifts, if_pos rfl] at here
  subst answered
  obtain ⟨v₂, closed, all₃, log⟩ :=
    close_replacing lawful replace (i := pre.length) (n := 0) may all₂
  rw [Nat.zero_add] at closed
  have next := LiveLoop.turns_succ reads called closed
  -- The calls after it.
  obtain ⟨later, v₃, shown₃, all₄, noted₃, onward₃⟩ := outcome_of_still lawful
    (droppedAt pre.length (new x ≠ x ∧ s'.length ≤ pre.length)) (j := pre.length + 1)
    (n := if new x = x ∨ s'.length ≤ pre.length then 0 else 1) all₃
    (fun p _ => by simp [droppedAt]; omega) (fun rounds turn mem => by
      have here := shifts (pre.length + (rounds + 1)) turn (by
        rw [replacements, (onward₁ _).1, (next rounds).1]
        exact List.mem_append_right _ (List.mem_cons_of_mem _ mem))
      have behind := LiveLoop.le_position_of_mem mem
      rwa [Shifts, if_neg (by omega)] at here)
  refine ⟨first ++ ⟨pre.length, x, v₁, .ok (new x), u⟩ :: later, v₃, ?_, all₄,
    noted₁.append (.cons ?_ noted₃), fun rounds enough => ?_⟩
  · have tail : (if new x = x then s' else s'.set pre.length (new x)).drop (pre.length + 1) =
        s'.drop (pre.length + 1) := by
      split <;> simp [List.drop_set_of_lt]
    simp [shown₁, shown₃, tail]
  · rw [log]
    by_cases kept : new x = x <;> by_cases short : s'.length ≤ pre.length <;>
      simp [droppedAt, kept, short, Nat.not_lt_of_le, Nat.lt_of_not_le]
  · obtain ⟨more, rfl⟩ : ∃ more, rounds = pre.length + (more + 1) := ⟨rounds - pre.length - 1, by omega⟩
    have length : (if new x = x then s' else s'.set pre.length (new x)).length = s'.length := by
      split <;> simp
    have last := onward₃ more (by omega)
    rw [replacements, (onward₁ _).1, (onward₁ _).2, (next more).1, (next more).2, last.1, last.2]
    exact ⟨rfl, rfl⟩

end Lawful

theorem items_of_kept {turns : List (Turn (World σ) α α)} {answers : List α}
    (results : turns.map Turn.result = answers.map .ok)
    (kept : ∀ turn ∈ turns, ∀ b, turn.result = .ok b → b = turn.item) :
    turns.map Turn.item = answers := by
  induction turns generalizing answers with
  | nil => simpa using results
  | cons turn turns ih =>
    cases answers with
    | nil => cases results
    | cons b answers =>
      obtain ⟨first, later⟩ := List.cons_eq_cons.mp results
      rw [List.map_cons, kept turn List.mem_cons_self b first,
        ih later fun turn mem => kept turn (List.mem_cons_of_mem _ mem)]

section Keeping

variable [DecidableEq α] {seq : Access (World σ) α}
  {visit : α → World σ → Except Fault Unit × World σ} {rounds : Nat} {w : World σ}

theorem visits_eq : visits seq visit rounds w =
    (replacements seq (keeping visit) rounds w).map Turn.visit :=
  visiting_turns rounds 0 0 w

theorem result_of_keeping {turn : Turn (World σ) α α}
    (mem : turn ∈ replacements seq (keeping visit) rounds w) :
    turn.result = turn.visit.result.map fun _ => turn.item := by
  have called : ((visit turn.item turn.before).1.map fun _ => turn.item) = turn.result :=
    congrArg Prod.fst (LiveLoop.turns_called rounds turn mem).2
  rw [Turn.visit, ← called]
  cases (visit turn.item turn.before).1 <;> rfl

theorem shifts_of_visit {turn : Turn (World σ) α α} {i : Nat} {s' : List α}
    (mem : turn ∈ replacements seq (keeping visit) rounds w)
    (shifts : Shifts seq (fun _ => ()) i s' (fun _ => ()) turn.visit) : Shifts seq id i s' id turn := by
  have kept := result_of_keeping mem
  unfold Shifts at *
  split at shifts
  next here =>
    rw [if_pos (show turn.position = i from here), kept, shifts.1]
    exact ⟨rfl, shifts.2⟩
  next elsewhere =>
    rw [if_neg (show turn.position ≠ i from elsewhere), kept, shifts.1]
    exact ⟨rfl, shifts.2⟩

theorem outcome_keeping {w' : World σ}
    (done : (visiting seq visit).outcome rounds 0 () w = some (.ok (), w')) :
    ∃ n, (replacing seq (keeping visit)).outcome rounds 0 0 w = some (.ok n, w') := by
  rw [visiting_outcome rounds 0 0] at done
  obtain ⟨⟨e | n, v⟩, ended, same⟩ := Option.map_eq_some_iff.mp done
  · cases same
  · cases same
    exact ⟨n, ended⟩

end Keeping

section Laws

variable [DecidableEq α] {seq : Access (World σ) α} {fits : α → Prop}

theorem visits_of_leavesHead (lawful : seq.Lawful fits)
    {visit : α → World σ → Except Fault Unit × World σ} {rounds : Nat} {w w' : World σ}
    (done : (visiting seq visit).outcome rounds 0 () w = some (.ok (), w'))
    (leaves : ∀ turn ∈ visits seq visit rounds w, LeavesHead seq turn) :
    seq.readAll w' = .ok ((visits seq visit rounds w).map Turn.item) := by
  rw [visits_eq] at leaves ⊢
  obtain ⟨n, ended⟩ := outcome_keeping done
  have kept : ∀ turn ∈ replacements seq (keeping visit) rounds w,
      ∀ b, turn.result = .ok b → b = turn.item := by
    intro turn mem b answered
    rw [result_of_keeping mem] at answered
    cases good : turn.visit.result <;> simp_all [Except.map]
  obtain ⟨answers, results, final, _⟩ := replacements_of_leavesHead lawful ended
    (fun turn mem => leaves turn.visit (List.mem_map_of_mem mem))
    (fun turn mem b answered other => absurd (kept turn mem b answered) other)
  rw [final, ← items_of_kept results kept, List.map_map]
  rfl

/-- A live loop whose calls leave alone what is behind it: a replacement leaves the list of its answers and
drops none, and a visit has come by all that is there in the end. -/
theorem live_loops_of_leavesHead (lawful : seq.Lawful fits) :
    (∀ (replace : α → World σ → Except Fault α × World σ) (steps n : Nat) (w w' : World σ),
      let turns := replacements seq replace steps w
      replaceEach steps seq replace w = some (.ok n, w') →
      (∀ turn ∈ turns, LeavesHead seq turn) →
      (∀ turn ∈ turns, ∀ b, turn.result = .ok b → b ≠ turn.item → fits b) →
      (∀ turn ∈ turns, seq.read turn.position turn.before = .ok (some turn.item) ∧
        replace turn.item turn.before = (turn.result, turn.after)) ∧
      turns.map Turn.position = List.range turns.length ∧
      (∃ answers, turns.map Turn.result = answers.map .ok ∧ seq.readAll w' = .ok answers) ∧
      Noted (fun _ => []) w turns w' ∧
      n = turns.countP fun turn => turn.result ≠ .ok turn.item) ∧
    ∀ (visit : α → World σ → Except Fault Unit × World σ) (steps : Nat) (w w' : World σ),
      let turns := visits seq visit steps w
      forEach steps .live seq visit w = some (.ok (), w') →
      (∀ turn ∈ turns, LeavesHead seq turn) →
      (∀ turn ∈ turns, seq.read turn.position turn.before = .ok (some turn.item) ∧
        visit turn.item turn.before = (turn.result, turn.after)) ∧
      turns.map Turn.position = List.range turns.length ∧
      seq.readAll w' = .ok (turns.map Turn.item) := by
  constructor
  · intro replace steps n w w' turns done leaves may
    obtain ⟨answers, results, final, noted, count⟩ :=
      replacements_of_leavesHead lawful (outcome_of_replaceEach done) leaves may
    refine ⟨LiveLoop.turns_called steps, ?_, ⟨answers, results, final⟩, noted, count⟩
    rw [List.range_eq_range']
    exact LiveLoop.map_position_turns steps
  · intro visit steps w w' turns done leaves
    refine ⟨LiveLoop.turns_called steps, ?_, visits_of_leavesHead lawful (outcome_of_forEach done) leaves⟩
    rw [List.range_eq_range']
    exact LiveLoop.map_position_turns steps

end Laws

def blockOf (statements : List NodeId) : World Unit where
  arena := .ofList [⟨.block, (statements, ()), .dummy⟩]
  log := #[]
  state := ()

def blockLane : Access (World Unit) (Option NodeId) :=
  .lane .block ⟨0⟩ 0

/-- Puts statement 3 behind statement 1 and answers with 4 for it. -/
def insertingBehind (place : Option NodeId) (w : World Unit) :
    Except Fault (Option NodeId) × World Unit :=
  if place = some ⟨1⟩ then (.ok (some ⟨4⟩), blockOf [⟨1⟩, ⟨3⟩, ⟨2⟩]) else (.ok place, w)

def growingBehind (place : Option NodeId) (w : World Unit) : Except Fault Unit × World Unit :=
  (.ok (), (insertingBehind place w).2)

theorem live_loops_insertingBehind :
    replaceEach 9 blockLane insertingBehind (blockOf [⟨1⟩, ⟨2⟩]) =
        some (.ok 1, blockOf [⟨4⟩, ⟨3⟩, ⟨2⟩]) ∧
      (∃ answers, (replacements blockLane insertingBehind 9 (blockOf [⟨1⟩, ⟨2⟩])).map
          Turn.result = answers.map .ok ∧
        blockLane.readAll (blockOf [⟨4⟩, ⟨3⟩, ⟨2⟩]) = .ok answers) ∧
      blockLane.readAll (blockOf [⟨1⟩, ⟨3⟩, ⟨2⟩]) = .ok
        ((visits blockLane growingBehind 9 (blockOf [⟨1⟩, ⟨2⟩])).map Turn.item) := by
  have lawful : blockLane.Lawful fun place => place.isSome := Access.lane_lawful .block ⟨0⟩ 0
  have law := live_loops_of_leavesHead lawful
  have replaced := law.1 insertingBehind 9 1 (blockOf [⟨1⟩, ⟨2⟩]) (blockOf [⟨4⟩, ⟨3⟩, ⟨2⟩]) rfl
    (by unfold LeavesHead; decide) (fun turn mem b answered other => by
      have called := congrArg Prod.fst (LiveLoop.turns_called 9 turn mem).2
      simp only [replacing, insertingBehind, answered] at called
      split at called
      · cases called
        rfl
      · exact absurd (Except.ok.inj called).symm other)
  have visited := law.2 growingBehind 9 (blockOf [⟨1⟩, ⟨2⟩]) (blockOf [⟨1⟩, ⟨3⟩, ⟨2⟩]) rfl
    (by unfold LeavesHead; decide)
  exact ⟨rfl, replaced.2.2.1, visited.2.2⟩

section Shifted

variable {pre' ins post : List α} {x y : α} {i : Nat}

theorem drop_of_shorter {r : Nat} (shorter : pre'.length + r = i) :
    (pre' ++ [x] ++ ins ++ post).drop (i + 1) = (ins ++ post).drop r := by
  have past : pre'.length + 1 + r = i + 1 := by omega
  rw [List.append_assoc, ← past, ← List.drop_drop, List.drop_left' (by simp)]

theorem drop_of_longer {n : Nat} (longer : pre'.length = i + (n + 1)) :
    (pre' ++ [x] ++ ins ++ post).drop (i + 1) =
      pre'.drop (pre'.length - n) ++ [x] ++ ins ++ post := by
  rw [show pre'.length - n = i + 1 by omega]
  simp only [List.append_assoc]
  rw [List.drop_append_of_le_length (by omega)]

theorem set_of_shorter {r : Nat} (shorter : pre'.length + (r + 1) = i) :
    (pre' ++ [x] ++ ins ++ post).set i y = pre' ++ [x] ++ (ins ++ post).set r y := by
  rw [List.append_assoc, List.set_append_right _ _ (by simp; omega)]
  congr 2
  simp
  omega

end Shifted

section Laws

variable [DecidableEq α] {seq : Access (World σ) α} {fits : α → Prop}

/-- A live visit in which one call makes the sequence `s'`. -/
theorem forEach_of_shifts (lawful : seq.Lawful fits)
    {visit : α → World σ → Except Fault Unit × World σ} {pre post s' : List α} {x : α} {w : World σ}
    (start : seq.readAll w = .ok (pre ++ [x] ++ post))
    (shifts : ∀ rounds, ∀ turn ∈ visits seq visit rounds w,
      Shifts seq (fun _ => ()) pre.length s' (fun _ => ()) turn) :
    ∃ enough w', seq.readAll w' = .ok s' ∧ ∀ steps, enough ≤ steps →
      forEach steps .live seq visit w = some (.ok (), w') ∧
      (visits seq visit steps w).map Turn.item = pre ++ [x] ++ s'.drop (pre.length + 1) := by
  have kept : ∀ rounds, ∀ turn ∈ replacements seq (keeping visit) rounds w,
      Shifts seq id pre.length s' id turn := by
    intro rounds turn mem
    apply shifts_of_visit mem
    apply shifts rounds
    rw [visits_eq]
    exact List.mem_map_of_mem mem
  obtain ⟨turns, w', shown, final, -, onward⟩ := outcome_of_shifts lawful id (by simp) start kept
  have ended : (visiting seq visit).outcome (pre.length + s'.length + 2) 0 () w =
      some (.ok (), w') := by
    rw [visiting_outcome _ 0 0, (onward _ (by omega)).2]
    rfl
  obtain ⟨enough, done⟩ := forEach_of_outcome ended
  refine ⟨max enough (pre.length + s'.length + 2), w', by simpa using final, fun steps more => ?_⟩
  refine ⟨done steps (by omega), ?_⟩
  rw [visits_eq, (onward steps (by omega)).1, ← shown, List.map_map]
  rfl

/-- A replacement in which one call makes the sequence `s'` and answers with `y`. -/
theorem replaceEach_of_shifts (lawful : seq.Lawful fits)
    {replace : α → World σ → Except Fault α × World σ} {pre post s' : List α} {x y : α} {w : World σ}
    (start : seq.readAll w = .ok (pre ++ [x] ++ post)) (may : y ≠ x → fits y)
    (shifts : ∀ rounds, ∀ turn ∈ replacements seq replace rounds w,
      Shifts seq id pre.length s' (fun _ => y) turn) :
    ∃ enough w', seq.readAll w' = .ok (if y = x then s' else s'.set pre.length y) ∧
      ∀ steps, enough ≤ steps →
        replaceEach steps seq replace w =
          some (.ok (if y = x ∨ s'.length ≤ pre.length then 0 else 1), w') ∧
        (replacements seq replace steps w).map Turn.item = pre ++ [x] ++ s'.drop (pre.length + 1) ∧
        Noted (droppedAt pre.length (y ≠ x ∧ s'.length ≤ pre.length)) w
          (replacements seq replace steps w) w' := by
  obtain ⟨turns, w', shown, final, noted, onward⟩ :=
    outcome_of_shifts lawful (fun _ => y) may start shifts
  obtain ⟨enough, done⟩ := replaceEach_of_outcome (onward (pre.length + s'.length + 2) (by omega)).2
  refine ⟨max enough (pre.length + s'.length + 2), w', final, fun steps more => ?_⟩
  rw [(onward steps (by omega)).1]
  exact ⟨done steps (by omega), shown, noted⟩

/-- One call of a live loop changes the sequence around its element, and no other call does. The calls
after it are made for what is past its position by then. A replacement stores the answer of that call at
the position, and drops it if there is none. -/
theorem live_loops_of_shifts (lawful : seq.Lawful fits) (pre pre' ins post : List α) (x : α) :
    let i := pre.length
    let s' := pre' ++ [x] ++ ins ++ post
    (∀ r, pre'.length + r = i → s'.drop (i + 1) = (ins ++ post).drop r) ∧
    (∀ n, pre'.length = i + (n + 1) →
      s'.drop (i + 1) = pre'.drop (pre'.length - n) ++ [x] ++ ins ++ post) ∧
    (∀ (visit : α → World σ → Except Fault Unit × World σ) (w : World σ),
      seq.readAll w = .ok (pre ++ [x] ++ post) →
      (∀ rounds, ∀ turn ∈ visits seq visit rounds w,
        Shifts seq (fun _ => ()) i s' (fun _ => ()) turn) →
      ∃ enough w', seq.readAll w' = .ok s' ∧ ∀ steps, enough ≤ steps →
        forEach steps .live seq visit w = some (.ok (), w') ∧
        (visits seq visit steps w).map Turn.item = pre ++ [x] ++ s'.drop (i + 1)) ∧
    ∀ (replace : α → World σ → Except Fault α × World σ) (y : α) (w : World σ),
      seq.readAll w = .ok (pre ++ [x] ++ post) → (y ≠ x → fits y) →
      (∀ rounds, ∀ turn ∈ replacements seq replace rounds w, Shifts seq id i s' (fun _ => y) turn) →
      ∃ enough n w', ∀ steps, enough ≤ steps →
        let turns := replacements seq replace steps w
        replaceEach steps seq replace w = some (.ok n, w') ∧
        turns.map Turn.item = pre ++ [x] ++ s'.drop (i + 1) ∧
        (y = x → n = 0 ∧ seq.readAll w' = .ok s' ∧ Noted (fun _ => []) w turns w') ∧
        (y ≠ x → i < s'.length →
          n = 1 ∧ seq.readAll w' = .ok (s'.set i y) ∧ Noted (fun _ => []) w turns w' ∧
          ∀ r, pre'.length + (r + 1) = i →
            s'.set i y = pre' ++ [x] ++ (ins ++ post).set r y ∧ (s'.set i y)[i - (r + 1)]? = some x) ∧
        (y ≠ x → s'.length ≤ i →
          n = 0 ∧ seq.readAll w' = .ok s' ∧
          Noted (fun p => if p = i then [.dropped i] else []) w turns w') := by
  intro i s'
  refine ⟨fun r => drop_of_shorter, fun n => drop_of_longer,
    fun visit w start shifts => forEach_of_shifts lawful start shifts,
    fun replace y w start may shifts => ?_⟩
  obtain ⟨enough, w', final, runs⟩ := replaceEach_of_shifts lawful start may shifts
  refine ⟨enough, if y = x ∨ s'.length ≤ pre.length then 0 else 1, w', fun steps more => ?_⟩
  obtain ⟨done, shown, noted⟩ := runs steps more
  refine ⟨done, shown, fun same => ?_, fun other less => ?_, fun other short => ?_⟩
  · rw [droppedAt_of_not (by simp [same])] at noted
    exact ⟨by simp [same], by simpa [same] using final, noted⟩
  · have reaches : ¬ s'.length ≤ pre.length := Nat.not_le_of_lt less
    rw [droppedAt_of_not (by simp [reaches])] at noted
    refine ⟨by simp [other, reaches], by simpa [other] using final, noted, fun r shorter => ?_⟩
    have stored : s'.set i y = pre' ++ [x] ++ (ins ++ post).set r y := set_of_shorter shorter
    refine ⟨stored, ?_⟩
    rw [stored, ← shorter]
    simp
  · rw [droppedAt_of ⟨other, short⟩] at noted
    have whole : s'.set pre.length y = s' := List.set_eq_of_length_le short
    exact ⟨if_pos (.inr short), by simpa [other, whole] using final, noted⟩

/-- Takes statement 1 away from before statement 3, puts 5 behind it and answers with 6 for it. -/
def shiftingBack (place : Option NodeId) (w : World Unit) :
    Except Fault (Option NodeId) × World Unit :=
  if place = some ⟨3⟩ then (.ok (some ⟨6⟩), blockOf [⟨2⟩, ⟨3⟩, ⟨5⟩, ⟨4⟩]) else (.ok place, w)

theorem live_loops_shiftingBack :
    blockLane.readAll (blockOf [⟨1⟩, ⟨2⟩, ⟨3⟩, ⟨4⟩]) =
        .ok ([some ⟨1⟩, some ⟨2⟩] ++ [some ⟨3⟩] ++ [some ⟨4⟩]) ∧
      ∃ enough n w', ∀ steps, enough ≤ steps →
        replaceEach steps blockLane shiftingBack (blockOf [⟨1⟩, ⟨2⟩, ⟨3⟩, ⟨4⟩]) =
            some (.ok n, w') ∧
          n = 1 ∧ blockLane.readAll w' = .ok [some ⟨2⟩, some ⟨3⟩, some ⟨6⟩, some ⟨4⟩] := by
  have lawful : blockLane.Lawful fun place => place.isSome := Access.lane_lawful .block ⟨0⟩ 0
  have law := live_loops_of_shifts lawful [some ⟨1⟩, some ⟨2⟩] [some ⟨2⟩]
    [some ⟨5⟩] [some ⟨4⟩] (some ⟨3⟩)
  have shifts : ∀ turn ∈ replacements blockLane shiftingBack 9 (blockOf [⟨1⟩, ⟨2⟩, ⟨3⟩, ⟨4⟩]),
      Shifts blockLane id 2 [some ⟨2⟩, some ⟨3⟩, some ⟨5⟩, some ⟨4⟩] (fun _ => some ⟨6⟩) turn := by
    unfold Shifts
    decide
  obtain ⟨enough, n, w', done⟩ := law.2.2.2 shiftingBack (some ⟨6⟩) (blockOf [⟨1⟩, ⟨2⟩, ⟨3⟩, ⟨4⟩]) rfl
    (fun _ => rfl) (fun rounds turn mem => shifts turn (LiveLoop.mem_turns_of_outcome 9 rfl mem))
  refine ⟨rfl, enough, n, w', fun steps more => ?_⟩
  obtain ⟨ends, -, -, stored, -⟩ := done steps more
  obtain ⟨one, final, -⟩ := stored (by decide) (by decide)
  exact ⟨ends, one, final⟩

end Laws

end ProgramTree.Sequence
