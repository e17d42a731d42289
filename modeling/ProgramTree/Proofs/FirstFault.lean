import ProgramTree.Proofs.Contract
import ProgramTree.Proofs.Traversal

/-!
Where a reading pass stops. In an arena with arbitrary contents the unfolding from a handle may be
infinite, but it has a preorder, which is given here by its first handles (`Arena.preorder`). The
recorder that looks into every node notes this preorder up to and with the first bad handle, and fails
for the reason that is wrong with that handle (`recorder_stops_at_first_fault`).
-/

namespace ProgramTree

namespace Arena

variable {a : Arena} {h : Handle} {n : Node} {hs hs' hs'' noted later : List Handle} {e : Fault}

instance (a : Arena) (h : Handle) : Decidable (a.Good h) :=
  match found : a.node h.node with
  | .ok n => decidable_of_iff (n.category = h.category)
      ⟨fun same => ⟨n, found, same⟩, fun ⟨_, shown, same⟩ => Except.ok.inj (found.symm.trans shown) ▸ same⟩
  | .error _ => isFalse fun ⟨_, shown, _⟩ => nomatch found.symm.trans shown

def below (a : Arena) (h : Handle) : List Handle :=
  match a.node h.node with
  | .ok n => if n.category = h.category then n.children else []
  | .error _ => []

theorem below_of_shows (shown : a.Shows h n) : a.below h = n.children := by
  simp [below, shown.1, shown.2]

/-- The first `count` handles in the preorder of the unfolding from `hs`. Bad handles are leaves. -/
def preorder (a : Arena) : (count : Nat) → (hs : List Handle) → List Handle
  | 0, _ => []
  | _ + 1, [] => []
  | count + 1, h :: hs => h :: a.preorder count (a.below h ++ hs)

/-- The list up to and with its first bad handle. -/
def untilBad (a : Arena) : List Handle → List Handle
  | [] => []
  | h :: hs => if a.Good h then h :: a.untilBad hs else [h]

theorem untilBad_append (good : ∀ h ∈ noted, a.Good h) (hs : List Handle) :
    a.untilBad (noted ++ hs) = noted ++ a.untilBad hs := by
  induction noted with
  | nil => rfl
  | cons h noted ih =>
    rw [List.forall_mem_cons] at good
    simp [untilBad, good.1, ih good.2]

/-- In preorder, the handles `noted` come first, and the unfolding from `hs'` remains. -/
def Advances (a : Arena) (hs noted hs' : List Handle) : Prop :=
  ∀ count, a.preorder (noted.length + count) hs = noted ++ a.preorder count hs'

theorem Advances.refl (a : Arena) (hs : List Handle) : a.Advances hs [] hs := by
  intro count
  simp

theorem Advances.trans (first : a.Advances hs noted hs') (second : a.Advances hs' later hs'') :
    a.Advances hs (noted ++ later) hs'' := by
  intro count
  rw [List.length_append, Nat.add_assoc, first, second, List.append_assoc]

theorem Advances.head (a : Arena) (h : Handle) (hs : List Handle) :
    a.Advances (h :: hs) [h] (a.below h ++ hs) := by
  intro count
  rw [List.length_singleton, Nat.add_comm]
  rfl

theorem preorder_nil (a : Arena) (count : Nat) : a.preorder count [] = [] := by
  cases count <;> rfl

/-- The handles `noted` are all of the unfolding from `hs`, and they are good. -/
structure Covers (a : Arena) (hs noted : List Handle) : Prop where
  good : ∀ h ∈ noted, a.Good h
  advances : ∀ rest, a.Advances (hs ++ rest) noted rest

/-- The handles `noted` are the first of the unfolding from `hs`, and the last of them is the only bad
one, because of `e`. -/
structure Stops (a : Arena) (hs noted : List Handle) (e : Fault) : Prop where
  last : ∃ good last, noted = good ++ [last] ∧ (∀ h ∈ good, a.Good h) ∧ a.Blames last e
  advances : ∀ rest, ∃ rest', a.Advances (hs ++ rest) noted rest'

theorem Covers.node (shown : a.Shows h n) (covers : a.Covers n.children noted) :
    a.Covers [h] (h :: noted) := by
  constructor
  · intro c mem
    rcases List.mem_cons.mp mem with rfl | mem
    · exact ⟨n, shown⟩
    · exact covers.good c mem
  · intro rest
    have first := Advances.head a h rest
    rw [below_of_shows shown] at first
    exact first.trans (covers.advances rest)

theorem Stops.node (shown : a.Shows h n) (stops : a.Stops n.children noted e) :
    a.Stops [h] (h :: noted) e := by
  obtain ⟨⟨good, last, rfl, all, blames⟩, advances⟩ := stops
  constructor
  · refine ⟨h :: good, last, rfl, ?_, blames⟩
    intro c mem
    rcases List.mem_cons.mp mem with rfl | mem
    · exact ⟨n, shown⟩
    · exact all c mem
  · intro rest
    obtain ⟨rest', onward⟩ := advances rest
    have first := Advances.head a h rest
    rw [below_of_shows shown] at first
    exact ⟨rest', first.trans onward⟩

theorem Stops.head (blames : a.Blames h e) : a.Stops [h] [h] e where
  last := ⟨[], h, rfl, List.forall_mem_nil _, blames⟩
  advances rest := ⟨_, Advances.head a h rest⟩

theorem Covers.ne_nil (covers : a.Covers [h] noted) : noted ≠ [] := by
  rintro rfl
  exact List.cons_ne_nil h [] (covers.advances [] 1)

theorem Covers.untilBad {count : Nat} (covers : a.Covers hs noted) (enough : noted.length ≤ count) :
    a.untilBad (a.preorder count hs) = noted := by
  obtain ⟨more, rfl⟩ := Nat.exists_eq_add_of_le enough
  have whole := covers.advances [] more
  rw [List.append_nil, preorder_nil] at whole
  rw [whole, untilBad_append covers.good]
  exact List.append_nil noted

theorem Stops.untilBad {count : Nat} (stops : a.Stops hs noted e) (enough : noted.length ≤ count) :
    a.untilBad (a.preorder count hs) = noted := by
  obtain ⟨⟨good, last, rfl, all, blames⟩, advances⟩ := stops
  obtain ⟨more, rfl⟩ := Nat.exists_eq_add_of_le enough
  obtain ⟨rest', onward⟩ := advances []
  have whole := onward more
  rw [List.append_nil, List.append_assoc] at whole
  rw [whole, untilBad_append all, List.singleton_append, Arena.untilBad, if_neg blames.not_good]

end Arena

namespace Visitor

variable {policy : List Handle → Policy} {a : Arena}

def Cursor.ahead (n : Node) (k : Nat) : Cursor → List Handle
  | live i => n.onward k i
  | copy left => (n.tag.lanes[k]?.elim [] fun lane => lane.held left) ++ n.onward (k + 1) 0

namespace Cursor

variable {σ : Type} {n : Node} {owner : NodeId} {w : World σ} {k : Nat} {lane : Lane} {cursor : Cursor}

theorem ahead_none (stored : w.arena.node owner = .ok n)
    (reads : cursor.place? n.tag owner k w = .ok (some none)) :
    cursor.ahead n k = cursor.next.ahead n k := by
  cases cursor with
  | live i =>
    rw [place?, World.place?_of_node stored] at reads
    exact n.onward_none (Except.ok.inj reads)
  | copy left =>
    cases left with
    | nil => cases reads
    | cons place left =>
      obtain rfl : place = none := Option.some.inj (Except.ok.inj reads)
      rw [next, ahead, ahead]
      cases n.tag.lanes[k]? <;> rfl

theorem ahead_some {id : NodeId} (stored : w.arena.node owner = .ok n)
    (here : n.tag.lanes[k]? = some lane)
    (reads : cursor.place? n.tag owner k w = .ok (some (some id))) :
    cursor.ahead n k = ⟨lane.category, id⟩ :: cursor.next.ahead n k := by
  cases cursor with
  | live i =>
    rw [place?, World.place?_of_node stored] at reads
    exact n.onward_some here (Except.ok.inj reads)
  | copy left =>
    cases left with
    | nil => cases reads
    | cons place left =>
      obtain rfl : place = some id := Option.some.inj (Except.ok.inj reads)
      rw [next, ahead, ahead, here]
      rfl

theorem ahead_end (stored : w.arena.node owner = .ok n)
    (reads : cursor.place? n.tag owner k w = .ok none) :
    cursor.ahead n k = (live 0).ahead n (k + 1) := by
  cases cursor with
  | live i =>
    rw [place?, World.place?_of_node stored] at reads
    exact n.onward_end (Except.ok.inj reads)
  | copy left =>
    cases left with
    | nil =>
      rw [ahead, ahead]
      cases n.tag.lanes[k]? <;> rfl
    | cons place left => cases reads

theorem ahead_copy (n : Node) (k : Nat) : (copy (n.places k)).ahead n k = (live 0).ahead n k := by
  rw [ahead, ahead, Node.onward_start n (k + 1)]
  rfl

end Cursor

/-- The terms of the recorder in the arena `a`. A handle is noted before it is dispatched. -/
def noting (a : Arena) : Terms (World (List Handle)) (Moment Reply) Reply where
  pre c _ w := w.arena = a ∧
    match c with
    | .enter _ | .dispatch _ => True
    | .walk t owner => ∃ n, a.node owner = .ok n ∧ n.tag = t
  good c _ w _ _ w' := w'.arena = a ∧ ∃ noted, w'.state = w.state ++ noted ∧
    match c with
    | .enter h => a.Covers [h] noted
    | .dispatch h => a.Covers [h] (h :: noted)
    | .walk _ owner => ∀ n, a.node owner = .ok n → a.Covers n.children noted
  bad c _ w _ e w' := w'.arena = a ∧ ∃ noted, w'.state = w.state ++ noted ∧
    match c with
    | .enter h => a.Stops [h] noted e
    | .dispatch h => a.Stops [h] (h :: noted) e
    | .walk _ owner => ∀ n, a.node owner = .ok n → a.Stops n.children noted e

/-- What is noted during the walk of a node, and what is left of it. -/
theorem noting_roams {owner : NodeId} {n : Node} (stored : a.node owner = .ok n) (start : List Handle) :
    Roams policy (noting a) n.tag owner
      (fun k cursor _ w => w.arena = a ∧ ∃ noted, w.state = start ++ noted ∧ (∀ h ∈ noted, a.Good h) ∧
        ∀ rest, a.Advances (n.children ++ rest) noted (cursor.ahead n k ++ rest))
      (fun _ e w => w.arena = a ∧ ∃ noted, w.state = start ++ noted ∧ a.Stops n.children noted e) where
  lost := by
    rintro k cursor past w e ⟨rfl, -⟩ lost
    rw [Arena.get_of_node stored] at lost
    cases lost
  copy := by
    rintro k past w left - ⟨rfl, noted, state, good, advances⟩ reads
    rw [World.places_of_node stored] at reads
    cases reads
    refine ⟨rfl, noted, state, good, ?_⟩
    rwa [Cursor.ahead_copy]
  skip := by
    rintro k cursor past w ⟨rfl, noted, state, good, advances⟩ reads
    refine ⟨rfl, noted, state, good, ?_⟩
    rwa [← Cursor.ahead_none stored reads]
  enter := by
    rintro k cursor past w lane id here ⟨rfl, noted, state, good, advances⟩ reads
    have next := Cursor.ahead_some stored here reads
    refine ⟨⟨rfl, trivial⟩, ?_, ?_⟩
    · rintro past' w' ⟨same, part, state', covers⟩
      refine ⟨same, noted ++ part, by rw [state', state, List.append_assoc], ?_, fun rest => ?_⟩
      · exact List.forall_mem_append.mpr ⟨good, covers.good⟩
      · have onward := advances rest
        rw [next] at onward
        exact onward.trans (covers.advances _)
    · rintro past' e w' ⟨same, part, state', ⟨init, last, rfl, all, blames⟩, stuck⟩
      refine ⟨same, noted ++ (init ++ [last]), by rw [state', state, List.append_assoc], ?_, fun rest => ?_⟩
      · refine ⟨noted ++ init, last, by simp, ?_, blames⟩
        exact List.forall_mem_append.mpr ⟨good, all⟩
      · obtain ⟨rest', onward⟩ := stuck (cursor.next.ahead n k ++ rest)
        have before := advances rest
        rw [next] at before
        exact ⟨rest', before.trans onward⟩
  stop := by
    rintro k cursor past w lane - ⟨rfl, noted, state, good, advances⟩ reads
    refine ⟨rfl, noted, state, good, ?_⟩
    rwa [← Cursor.ahead_end stored reads]
  single := by
    rintro k past w lane here one ⟨rfl, noted, state, good, advances⟩
    refine ⟨rfl, noted, state, good, ?_⟩
    have last : Cursor.place? n.tag owner k (.live 1) w = .ok none := by
      rw [Cursor.place?, World.place?_of_node stored, n.place?_succ_of_one here one]
    rwa [← Cursor.ahead_end stored last]

theorem recorder_keeps (policy : Policy) (a : Arena) : (recorder policy ∅).Keeps (noting a) where
  enter := by
    rintro h past w ⟨rfl, -⟩
    refine .call ⟨rfl, trivial⟩ ?_ ?_
    · rintro inner reply w' ⟨same, noted, state, covers⟩
      exact .ok ⟨same, h :: noted, by simpa using state, covers⟩
    · rintro inner e w' ⟨same, noted, state, stops⟩
      exact .error ⟨same, h :: noted, by simpa using state, stops⟩
  unknown := by
    rintro h past w e w' ⟨rfl, -⟩ blames stuck
    have frame := World.classify_frame h w
    rw [stuck] at frame
    exact ⟨frame.1, [], frame.2.trans (List.append_nil _).symm, .head blames⟩
  method := by
    rintro h past w n ⟨rfl, -⟩ shown
    have looks : (recorder policy ∅).method n.tag h.node = Script.perform (Call.walk n.tag h.node) := by
      simp [recorder]
    rw [looks]
    refine .call ⟨rfl, n, shown.1, rfl⟩ ?_ ?_
    · rintro inner reply w' ⟨same, noted, state, covers⟩
      exact .ok ⟨same, noted, state, .node shown (covers n shown.1)⟩
    · rintro inner e w' ⟨same, noted, state, stops⟩
      exact .error ⟨same, noted, state, .node shown (stops n shown.1)⟩
  walk := by
    rintro t owner past w ⟨rfl, n, stored, rfl⟩
    refine ⟨_, _, noting_roams stored w.state, ?_, ?_, ?_⟩
    · refine ⟨rfl, [], by simp, List.forall_mem_nil _, fun rest => ?_⟩
      rw [Cursor.ahead, n.onward_start]
      exact .refl w.arena _
    · rintro past' w' ⟨same, noted, state, good, advances⟩
      refine ⟨same, noted, state, fun m found => ?_⟩
      cases stored.symm.trans found
      refine ⟨good, fun rest => ?_⟩
      have onward := advances rest
      rwa [Cursor.ahead, n.onward_start, List.drop_eq_nil_of_le n.length_rows.le] at onward
    · rintro past' e w' ⟨same, noted, state, stops⟩
      refine ⟨same, noted, state, fun m found => ?_⟩
      cases stored.symm.trans found
      exact stops

/-- From any handle, in any arena and with either policy, every run that ends: all handles noted but
the last are good. The run has succeeded exactly if the last one is good too, and otherwise it has
failed for what is wrong with that handle. The arena is as before, and what is noted is the preorder
of the unfolding up to and with its first bad handle. -/
theorem recorder_stops_at_first_fault (policy : Policy) (h : Handle) (steps : Nat)
    (w w' : World (List Handle)) (result : Except Fault Unit)
    (done : (recorder policy ∅).run steps (.enter h) w = some (result, w')) :
    ∃ good last, w'.state = w.state ++ (good ++ [last]) ∧ w'.arena = w.arena ∧
      (∀ c ∈ good, w.arena.Good c) ∧
      (result = .ok () ↔ w.arena.Good last) ∧
      (w.arena.size ≤ last.node.index → result = .error (.danglingHandle last.node w.arena.size)) ∧
      (∀ n, w.arena.node last.node = .ok n → n.category ≠ last.category →
        result = .error (.unknownNode last.category last.node n.tag)) ∧
      (∀ id expected found, result ≠ .error (.variantMismatch id expected found)) ∧
      (∀ rounds, result ≠ .error (.noFixedPoint rounds)) ∧
      ∀ count, (good ++ [last]).length ≤ count →
        w.arena.untilBad (w.arena.preorder count [h]) = good ++ [last] := by
  have holds := (recorder_keeps policy w.arena).run ⟨rfl, trivial⟩ done
  cases result with
  | ok reply =>
    obtain ⟨same, noted, state, covers⟩ := holds
    obtain ⟨good, last, rfl⟩ := (List.eq_nil_or_concat' noted).resolve_left covers.ne_nil
    obtain ⟨all, found⟩ := List.forall_mem_append.mp covers.good
    have shown : w.arena.Good last := found last List.mem_cons_self
    obtain ⟨n, stored, category⟩ := shown
    refine ⟨good, last, state, same, all, ⟨fun _ => ⟨n, stored, category⟩, fun _ => rfl⟩, ?_, ?_, ?_, ?_,
      fun count enough => covers.untilBad enough⟩
    · intro beyond
      have inside := Arena.lt_size_of_node stored
      omega
    · intro m found other
      cases stored.symm.trans found
      exact absurd category other
    · exact fun _ _ _ => nofun
    · exact fun _ => nofun
  | error e =>
    obtain ⟨same, noted, state, stops⟩ := holds
    obtain ⟨good, last, rfl, all, blames⟩ := stops.last
    refine ⟨good, last, state, same, all, ⟨nofun, fun shown => absurd shown blames.not_good⟩, ?_, ?_, ?_, ?_,
      fun count enough => stops.untilBad enough⟩
    · intro beyond
      cases blames with
      | dangling => rfl
      | category stored _ =>
        have inside := Arena.lt_size_of_node stored
        omega
    · intro m found other
      cases blames with
      | dangling beyond =>
        have inside := Arena.lt_size_of_node found
        omega
      | category stored _ =>
        cases stored.symm.trans found
        rfl
    · rintro id expected found ⟨⟩
      cases blames
    · rintro rounds ⟨⟩
      cases blames

/-- A block with a constant among its statements, and itself after it. -/
def cyclicSample : World (List Handle) where
  arena := .ofList [⟨.block, ([⟨1⟩, ⟨2⟩, ⟨0⟩], ()), .dummy⟩, ⟨.noopStatement, (), .dummy⟩,
    ⟨.constant, (.int 1, ()), .dummy⟩]
  log := #[]
  state := []

theorem recorder_stops_in_cyclicSample :
    (recorder .snapshot ∅).run 40 (.enter ⟨.statement, ⟨0⟩⟩) cyclicSample =
        some (.error (.unknownNode .statement ⟨2⟩ .constant),
          { cyclicSample with
            log := #[.unknownNode .statement ⟨2⟩ .constant]
            state := [⟨.statement, ⟨0⟩⟩, ⟨.statement, ⟨1⟩⟩, ⟨.statement, ⟨2⟩⟩] }) ∧
      ∀ count, 3 ≤ count →
        cyclicSample.arena.untilBad (cyclicSample.arena.preorder count [⟨.statement, ⟨0⟩⟩]) =
          [⟨.statement, ⟨0⟩⟩, ⟨.statement, ⟨1⟩⟩, ⟨.statement, ⟨2⟩⟩] := by
  refine ⟨rfl, ?_⟩
  obtain ⟨good, last, state, _, _, _, _, _, _, _, first⟩ :=
    recorder_stops_at_first_fault .snapshot ⟨.statement, ⟨0⟩⟩ 40 cyclicSample _ _ rfl
  have noted : [⟨.statement, ⟨0⟩⟩, ⟨.statement, ⟨1⟩⟩, ⟨.statement, ⟨2⟩⟩] = good ++ [last] := state
  rw [← noted] at first
  exact first

end Visitor

end ProgramTree
