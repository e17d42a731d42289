import ProgramTree.Proofs.Contract

/-!
Calls inside one another. What a run has shown tells which calls are in progress (`inProgress`).
`Machine.Arrives` is a run up to the beginning of some call, told call by call as `Machine.Yields` tells a
run up to its end: of the calls made so far some have ended and the others wait. The steps of the machine
lead to exactly the calls at which the code arrives (`arrives_of_history`, `Arrives.history`). If the code
comes to its end, then so does every call it arrives at, in fewer steps (`Yields.of_arrives`).
-/

namespace ProgramTree

variable {ω κ ι α : Type} {ρ : κ → Type} {τ : ι → Type}

def Moment.follow : List κ → Moment ρ → List κ
  | running, .began c => c :: running
  | running, .ended .. => running.tail

/-- The calls in progress, innermost first. -/
def inProgress (past : List (Moment ρ)) : List κ :=
  past.foldl Moment.follow []

namespace Machine

/-- The code arrives at the call `d`, to be made in the world `u`. Until then it shows `past`, and the calls
`waiting` are in progress, innermost first. -/
inductive Arrives (body : (c : κ) → Script ω ρ (ρ c)) :
    {α : Type} → Next ω ρ α → List (Moment ρ) → List κ → κ → ω → Prop where
  | here {α : Type} {c : κ} {w : ω} {resume : Except Fault (ρ c) → ω → Next ω ρ α} :
      Arrives body (.call c w resume) [] [] c w
  | inside {α : Type} {c d : κ} {w u : ω} {resume : Except Fault (ρ c) → ω → Next ω ρ α}
      {past : List (Moment ρ)} {waiting : List κ} :
      Arrives body (body c w) past waiting d u →
      Arrives body (.call c w resume) (.began c :: past) (waiting ++ [c]) d u
  | later {α : Type} {c d : κ} {w w₁ u : ω} {resume : Except Fault (ρ c) → ω → Next ω ρ α}
      {inner past : List (Moment ρ)} {waiting : List κ} {reply : Except Fault (ρ c)} :
      Yields body (body c w) inner reply w₁ → Arrives body (resume reply w₁) past waiting d u →
      Arrives body (.call c w resume) (.began c :: inner ++ .ended c reply :: past) waiting d u

variable {body body' : (c : κ) → Script ω ρ (ρ c)} {c d e : κ} {w u v : ω} {next : Next ω ρ α}
  {past before after : List (Moment ρ)} {waiting : List κ}

section Steps

/-- A call that is begun within some steps is one at which the code of the innermost call arrives, or it is
begun after that code has come to its end. -/
theorem arrives_of_moments (steps : Nat) : ∀ {goal c : κ} {next : Next ω ρ (ρ c)}
    {stack : Stack ω ρ goal c} {before : List (Moment ρ)},
    moments body steps ⟨next, stack⟩ = before ++ .began d :: after →
    (∃ waiting u, Arrives body next before waiting d u) ∨
      ∃ inner r w left rest, Yields body next inner r w ∧ left < steps ∧ before = inner ++ rest ∧
        moments body (left + 1) ⟨.finish r w, stack⟩ = rest ++ .began d :: after := by
  induction steps using Nat.strong_induction_on with
  | _ steps ih =>
    intro goal c next stack before shown
    obtain ⟨steps, rfl⟩ : ∃ k, steps = k + 1 := by
      cases steps with
      | zero => simp [moments] at shown
      | succ k => exact ⟨k, rfl⟩
    cases next with
    | finish r w => exact .inr ⟨[], r, w, steps, before, .finished r w, Nat.lt_succ_self _, rfl, shown⟩
    | call c' w resume =>
      have first : .began c' :: moments body steps ⟨body c' w, .push c' resume stack⟩ =
          before ++ .began d :: after := shown
      rcases before with _ | ⟨moment, before⟩
      · cases first
        exact .inl ⟨[], w, .here⟩
      obtain ⟨rfl, called⟩ := List.cons.inj first
      -- The callee arrives at the call, or it comes to its end and the caller goes on with the reply.
      rcases ih steps (Nat.lt_succ_self _) called with
        ⟨waiting, u, arrives⟩ | ⟨inner, reply, w₁, left, rest', inside, less, rfl, onward⟩
      · exact .inl ⟨_, u, .inside arrives⟩
      have second : .ended c' reply :: moments body left ⟨resume reply w₁, stack⟩ =
          rest' ++ .began d :: after := onward
      rcases rest' with _ | ⟨moment, rest'⟩
      · cases second
      obtain ⟨rfl, resumed⟩ := List.cons.inj second
      rcases ih left (by omega) resumed with
        ⟨waiting, u, arrives⟩ | ⟨outer, r, w₂, left', rest'', outside, less', rfl, last⟩
      · exact .inl ⟨_, u, .later inside arrives⟩
      · exact .inr ⟨_, r, w₂, left', rest'', .called inside outside, by omega, by simp, last⟩

theorem Arrives.moments_andThen (arrives : Arrives body next past waiting d u) :
    ∃ steps, ∀ {goal c : κ} (f : Except Fault α → ω → Next ω ρ (ρ c)) (stack : Stack ω ρ goal c),
      moments body steps ⟨next.andThen f, stack⟩ = past ++ [.began d] := by
  induction arrives with
  | here => exact ⟨1, fun f stack => rfl⟩
  | @inside α c d w u resume past waiting _ ih =>
    obtain ⟨steps, reach⟩ := ih
    refine ⟨steps + 1, fun f stack => ?_⟩
    have callee := reach .finish (.push c (fun r w' => (resume r w').andThen f) stack)
    rw [Next.andThen_finish] at callee
    exact congrArg (List.cons _) callee
  | @later α c d w w₁ u resume inner past waiting reply yields _ ih =>
    obtain ⟨taken, through⟩ := yields.finish_andThen
    obtain ⟨steps, reach⟩ := ih
    refine ⟨taken + (steps + 1) + 1, fun f stack => ?_⟩
    have callee := (through .finish (.push c (fun r w' => (resume r w').andThen f) stack) (steps + 1)).2
    rw [Next.andThen_finish] at callee
    calc
      _ = .began c :: moments body (taken + (steps + 1))
            ⟨body c w, .push c (fun r w' => (resume r w').andThen f) stack⟩ := rfl
      _ = .began c :: (inner ++ .ended c reply ::
            moments body steps ⟨(resume reply w₁).andThen f, stack⟩) := congrArg _ callee
      _ = _ := by simp [reach]

theorem arrives_of_history {steps : Nat} (shown : history body steps c w = before ++ .began d :: after) :
    ∃ waiting u, Arrives body (Script.perform c w) before waiting d u := by
  rcases before with _ | ⟨moment, before⟩
  · cases shown
    exact ⟨[], w, .here⟩
  · obtain ⟨rfl, rest⟩ := List.cons.inj shown
    rcases arrives_of_moments steps rest with ⟨waiting, u, arrives⟩ | ⟨_, _, _, _, rest, -, -, -, last⟩
    · exact ⟨_, u, .inside arrives⟩
    · -- Nothing is begun after the outermost call has ended.
      rcases rest with _ | ⟨_, rest⟩
      · cases last
      · have none : [] = rest ++ .began d :: after := (List.cons.inj last).2
        simp at none

theorem Arrives.history (arrives : Arrives body (Script.perform c w) past waiting d u) :
    ∃ steps, Machine.history body steps c w = past ++ [.began d] := by
  cases arrives with
  | here => exact ⟨0, rfl⟩
  | inside arrives =>
    obtain ⟨steps, reach⟩ := arrives.moments_andThen
    have shown := reach .finish (Stack.done : Stack ω ρ c c)
    rw [Next.andThen_finish] at shown
    exact ⟨steps, congrArg (List.cons _) shown⟩
  | later _ none => cases none

end Steps

theorem Arrives.trans {past' : List (Moment ρ)} {waiting' : List κ}
    (first : Arrives body next past waiting e v) (second : Arrives body (body e v) past' waiting' d u) :
    Arrives body next (past ++ .began e :: past') (waiting' ++ e :: waiting) d u := by
  induction first with
  | here => simpa using Arrives.inside second
  | inside _ ih => simpa using Arrives.inside (ih second)
  | later yields _ ih => simpa using Arrives.later yields (ih second)

theorem Arrives.of_waiting {inner outer : List κ} (arrives : Arrives body next past waiting d u)
    (split : waiting = inner ++ e :: outer) :
    ∃ past₁ past₂ v, Arrives body next past₁ outer e v ∧ Arrives body (body e v) past₂ inner d u := by
  induction arrives generalizing outer with
  | here => simp at split
  | @inside α c d w u resume past waiting arrives ih =>
    rcases List.eq_nil_or_concat' outer with rfl | ⟨outer, last, rfl⟩
    · obtain ⟨rfl, rfl⟩ : waiting = inner ∧ c = e := by simpa using split
      exact ⟨[], past, w, .here, arrives⟩
    · obtain ⟨rfl, rfl⟩ : waiting = inner ++ e :: outer ∧ c = last := by
        rw [← List.cons_append, ← List.append_assoc] at split
        simpa using List.append_inj' split rfl
      obtain ⟨past₁, past₂, v, first, second⟩ := ih rfl
      exact ⟨_, past₂, v, .inside first, second⟩
  | later yields _ ih =>
    obtain ⟨past₁, past₂, v, first, second⟩ := ih split
    exact ⟨_, past₂, v, .later yields first, second⟩

theorem Yields.unique {r r' : Except Fault α} {past' : List (Moment ρ)}
    (first : Yields body next past r u) (second : Yields body next past' r' v) :
    past' = past ∧ r' = r ∧ v = u := by
  induction first generalizing past' v with
  | finished r w =>
    cases second
    exact ⟨rfl, rfl, rfl⟩
  | called _ _ ihInner ihOuter =>
    cases second with
    | called inner outer =>
      obtain ⟨rfl, rfl, rfl⟩ := ihInner inner
      obtain ⟨rfl, rfl, rfl⟩ := ihOuter outer
      exact ⟨rfl, rfl, rfl⟩

/-- When the code comes to its end, a call at which it arrives has come to its end before. -/
theorem Yields.of_arrives {r : Except Fault α} {all : List (Moment ρ)} (yields : Yields body next all r v)
    (arrives : Arrives body next past waiting d u) :
    ∃ part reply u', Yields body (body d u) part reply u' ∧ part.length < all.length := by
  induction arrives generalizing all v with
  | here =>
    cases yields with
    | called inner _ => exact ⟨_, _, _, inner, by simp only [List.length_append, List.length_cons]; omega⟩
  | inside _ ih =>
    cases yields with
    | called inner _ =>
      obtain ⟨part, reply, u', ends, less⟩ := ih inner
      exact ⟨part, reply, u', ends, by simp only [List.length_append, List.length_cons]; omega⟩
  | later before _ ih =>
    cases yields with
    | called inner outer =>
      obtain ⟨-, rfl, rfl⟩ := before.unique inner
      obtain ⟨part, reply, u', ends, less⟩ := ih outer
      exact ⟨part, reply, u', ends, by simp only [List.length_append, List.length_cons]; omega⟩

/-- A run is the same with other bodies, unless it arrives at a call where they differ. -/
theorem Yields.divert {differ : κ → Prop} (agree : ∀ c, ¬ differ c → body' c = body c)
    {r : Except Fault α} (yields : Yields body next past r v) :
    Yields body' next past r v ∨ ∃ before waiting d u, differ d ∧
      Arrives body next before waiting d u ∧ Arrives body' next before waiting d u := by
  induction yields with
  | finished r w => exact .inl (.finished r w)
  | @called α c w w₁ w₂ resume inner outer reply r first _ ihInner ihOuter =>
    by_cases differs : differ c
    · exact .inr ⟨[], [], c, w, differs, .here, .here⟩
    have same : body' c w = body c w := by rw [agree c differs]
    rcases ihInner with first' | ⟨before, waiting, d, u, differs, arrives, arrives'⟩
    · have first'' : Yields body' (body' c w) inner reply w₁ := by rwa [same]
      rcases ihOuter with second' | ⟨before, waiting, d, u, differs, arrives, arrives'⟩
      · exact .inl (.called first'' second')
      · exact .inr ⟨_, waiting, d, u, differs, .later first arrives, .later first'' arrives'⟩
    · rw [← same] at arrives'
      exact .inr ⟨_, _, d, u, differs, .inside (same ▸ arrives), .inside arrives'⟩

section Visible

variable {body : (task : κ ⊕ ι) → Script ω (TaskReply ρ τ) (TaskReply ρ τ task)}
  {next : Next ω (TaskReply ρ τ) α} {past : List (Moment (TaskReply ρ τ))} {waiting : List (κ ⊕ ι)}
  {task : κ ⊕ ι} {u : ω}

theorem visible_eq_append {d : κ} {before after : List (Moment ρ)}
    (shown : visible past = before ++ .began d :: after) :
    ∃ past₁ past₂, past = past₁ ++ .began (.inl d) :: past₂ ∧ visible past₁ = before := by
  obtain ⟨past₁, rest, rfl, first, second⟩ := List.filterMap_eq_append_iff.mp shown
  obtain ⟨hidden, moment, past₂, rfl, none, here, -⟩ := List.filterMap_eq_cons_iff.mp second
  refine ⟨past₁ ++ hidden, past₂, ?_, ?_⟩
  · match moment with
    | .began (.inl c) =>
      cases here
      simp
    | .began (.inr l) | .ended (.inl c) r | .ended (.inr l) r => cases here
  · rw [Ends.visible_append, visible, first, visible, List.filterMap_eq_nil_iff.mpr none, List.append_nil]

theorem follow_visible_cons (moment : Moment (TaskReply ρ τ)) (running : List κ) :
    (visible (moment :: past)).foldl Moment.follow running =
      (visible past).foldl Moment.follow (moment.visible?.elim running (Moment.follow running)) := by
  rw [visible, visible, List.filterMap_cons]
  cases moment.visible? <;> rfl

theorem follow_visible_call {inner : List (Moment (TaskReply ρ τ))}
    {reply : Except Fault (TaskReply ρ τ task)} (running : List κ)
    (through : ∀ running : List κ, (visible inner).foldl Moment.follow running = running) :
    (visible (.began task :: inner ++ .ended task reply :: past)).foldl Moment.follow running =
      (visible past).foldl Moment.follow running := by
  rw [List.cons_append, follow_visible_cons, Ends.visible_append, List.foldl_append, through,
    follow_visible_cons]
  cases task <;> rfl

theorem Yields.follow_visible {r : Except Fault α} (yields : Yields body next past r u)
    (running : List κ) : (visible past).foldl Moment.follow running = running := by
  induction yields generalizing running with
  | finished r w => rfl
  | called _ _ ihInner ihOuter => rw [follow_visible_call running ihInner, ihOuter]

/-- When code arrives at a call, those of its calls are in progress that wait. -/
theorem Arrives.follow_visible (arrives : Arrives body next past waiting task u) (running : List κ) :
    (visible past).foldl Moment.follow running = waiting.filterMap Sum.getLeft? ++ running := by
  induction arrives generalizing running with
  | here => rfl
  | @inside _ task _ _ _ _ past waiting _ ih =>
    rw [follow_visible_cons, ih, List.filterMap_append, List.append_assoc]
    cases task <;> rfl
  | later yields _ ih => rw [follow_visible_call running yields.follow_visible, ih]

theorem Arrives.inProgress_visible (arrives : Arrives body next past waiting task u) :
    inProgress (visible past) = waiting.filterMap Sum.getLeft? := by
  rw [inProgress, arrives.follow_visible, List.append_nil]

end Visible

end Machine

end ProgramTree
