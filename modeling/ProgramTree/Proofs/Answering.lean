import Mathlib.Algebra.GroupWithZero.Nat
import ProgramTree.Proofs.Walking

/-!
Transforming passes that answer. Such a pass dispatches every handle that it enters, and then answers
with any node, an old one or one it has just allocated, or with a fault. This module follows such a
pass through its history, `entered` and `answers`, and says what it counts: a single place at once, a
sequence only when its end is reached (`Row.Settled`, `Forest.counted`). `World.Touched` is the frame of
such a pass.
-/

namespace ProgramTree

/-- What a handler does after the default dispatch. -/
structure Answer (σ : Type) where
  fresh : List Node
  result : Except Fault NodeId
  own : σ

variable {σ : Type}

def Arena.allocAll (a : Arena) (ns : List Node) : Arena :=
  ns.foldl (fun a n => (a.alloc n).2) a

def World.answered (w : World (Tally σ)) (x : Answer σ) : World (Tally σ) :=
  { w with arena := w.arena.allocAll x.fresh, state := { w.state with own := x.own } }

/-- The pass whose entry points run the default dispatch and then answer as `choose` says, which may
look at the whole world and the reply of the dispatch. -/
def Transformer.answering (choose : Handle → NodeId → World (Tally σ) → Answer σ) :
    Transformer σ where
  enter h := do
    let kept ← Script.perform (Call.dispatch h)
    Script.step fun w => ((choose h kept w).result, w.answered (choose h kept w))

/-- Answers in the order in which they were given. -/
abbrev Answers : Type :=
  List (Handle × NodeId)

/-- The node that takes the place of `h`. A handle that was not answered for keeps its own. -/
def Answers.of (given : Answers) (h : Handle) : NodeId :=
  (given.lookup h).getD h.node

section History

def Moment.entered? : Moment Transformer.Reply → Option Handle
  | .began (.enter h) => some h
  | _ => none

/-- The handles passed to the entry points. -/
def entered (past : List (Moment Transformer.Reply)) : List Handle :=
  past.filterMap Moment.entered?

def Moment.answer? : Moment Transformer.Reply → Option (Handle × NodeId)
  | .ended (.enter h) (.ok id) => some (h, id)
  | _ => none

def answers (past : List (Moment Transformer.Reply)) : Answers :=
  past.filterMap Moment.answer?

variable (past : List (Moment Transformer.Reply)) (h : Handle) (t : Tag) (id : NodeId)

theorem answers_of_none {m : Moment Transformer.Reply} (none : m.answer? = .none) :
    answers (past ++ [m]) = answers past := by
  rw [answers, List.filterMap_append, List.filterMap_cons_none none]
  exact List.append_nil _

theorem entered_of_none {m : Moment Transformer.Reply} (none : m.entered? = .none) :
    entered (past ++ [m]) = entered past := by
  rw [entered, List.filterMap_append, List.filterMap_cons_none none]
  exact List.append_nil _

theorem answers_began (c : Call) : answers (past ++ [.began c]) = answers past :=
  answers_of_none past rfl

theorem answers_error (c : Call) (e : Fault) :
    answers (past ++ [.ended c (.error e)]) = answers past :=
  answers_of_none past (by cases c <;> rfl)

theorem answers_dispatched (r : Except Fault NodeId) :
    answers (past ++ [.ended (.dispatch h) r]) = answers past :=
  answers_of_none past rfl

theorem answers_walked (r : Except Fault Unit) :
    answers (past ++ [.ended (.walk t id) r]) = answers past :=
  answers_of_none past rfl

theorem answers_entered :
    answers (past ++ [.ended (.enter h) (.ok id)]) = answers past ++ [(h, id)] :=
  List.filterMap_append

theorem entered_ended (c : Call) (r : Except Fault (Transformer.Reply c)) :
    entered (past ++ [.ended c r]) = entered past :=
  entered_of_none past (by cases c <;> rfl)

theorem entered_dispatch : entered (past ++ [.began (.dispatch h)]) = entered past :=
  entered_of_none past rfl

theorem entered_walk : entered (past ++ [.began (.walk t id)]) = entered past :=
  entered_of_none past rfl

theorem entered_enter : entered (past ++ [.began (.enter h)]) = entered past ++ [h] :=
  List.filterMap_append

end History

/-- A row is settled when its overwritten places have been counted: a single place at once, a sequence
when all its children were answered for. -/
def Row.Settled (given : Answers) (row : Row) : Prop :=
  row.lane.arity = .one ∨ ∀ c ∈ row.held, (given.lookup c).isSome

instance (given : Answers) (row : Row) : Decidable (row.Settled given) :=
  inferInstanceAs (Decidable (_ ∨ _))

/-- How many of the handles were answered for with another node. -/
def Answers.changes (given : Answers) (hs : List Handle) : Nat :=
  hs.countP fun c => decide (given.of c ≠ c.node)

/-- How many places of the row have been overwritten and counted. -/
def Row.counted (given : Answers) (row : Row) : Nat :=
  if row.Settled given then given.changes row.held else 0

def Node.counted (given : Answers) (n : Node) : Nat :=
  (n.rows.map (Row.counted given)).sum

def Forest.counted (given : Answers) (f : Forest) : Nat :=
  (f.nodes.map fun p => p.2.counted given).sum

namespace Answers

variable {given later : Answers} {h : Handle}

def keys (given : Answers) : List Handle :=
  given.map Prod.fst

theorem lookup_of_not_mem (absent : h ∉ given.keys) : given.lookup h = none := by
  rw [List.lookup_eq_none_iff]
  intro p mem
  have other : h ≠ p.1 := by
    rintro rfl
    exact absent (List.mem_map_of_mem mem)
  simpa using other

theorem isSome_lookup (mem : h ∈ given.keys) : (given.lookup h).isSome := by
  rw [Option.isSome_iff_ne_none, ne_eq, List.lookup_eq_none_iff]
  intro none
  obtain ⟨p, there, rfl⟩ := List.mem_map.mp mem
  simpa using none p there

theorem not_mem_of_lookup (none : given.lookup h = none) : h ∉ given.keys := by
  intro mem
  have some := isSome_lookup mem
  rw [none] at some
  cases some

theorem keys_append (given later : Answers) : (given ++ later).keys = given.keys ++ later.keys :=
  List.map_append

theorem mem_keys_append : h ∈ (given ++ later).keys ↔ h ∈ given.keys ∨ h ∈ later.keys := by
  rw [keys_append, List.mem_append]

theorem lookup_append_left (absent : h ∉ later.keys) :
    (given ++ later).lookup h = given.lookup h := by
  rw [List.lookup_append, lookup_of_not_mem absent, Option.or_none]

theorem lookup_append_right (absent : h ∉ given.keys) :
    (given ++ later).lookup h = later.lookup h := by
  rw [List.lookup_append, lookup_of_not_mem absent, Option.none_or]

theorem of_not_mem (absent : h ∉ given.keys) : given.of h = h.node := by
  rw [of, lookup_of_not_mem absent]
  rfl

end Answers

section Congruence

variable {given given' : Answers}

theorem Answers.changes_congr {hs : List Handle}
    (same : ∀ c ∈ hs, given.lookup c = given'.lookup c) : given.changes hs = given'.changes hs := by
  apply List.countP_congr
  intro c mem
  rw [Answers.of, Answers.of, same c mem]

theorem Row.counted_congr {row : Row} (same : ∀ c ∈ row.held, given.lookup c = given'.lookup c) :
    row.counted given = row.counted given' := by
  have settled : row.Settled given ↔ row.Settled given' :=
    or_congr_right (forall₂_congr fun c mem => by rw [same c mem])
  rw [Row.counted, Row.counted, Answers.changes_congr same]
  exact if_congr settled rfl rfl

theorem Node.counted_congr {n : Node} (same : ∀ c ∈ n.children, given.lookup c = given'.lookup c) :
    n.counted given = n.counted given' := by
  refine congrArg List.sum (List.map_congr_left fun row mem => Row.counted_congr fun c held => ?_)
  exact same c (List.mem_flatMap.mpr ⟨row, mem, held⟩)

theorem Node.mapChildren_answers_congr {n : Node}
    (same : ∀ c ∈ n.children, given.lookup c = given'.lookup c) :
    n.mapChildren given.of = n.mapChildren given'.of :=
  Node.mapChildren_congr fun c mem => by rw [Answers.of, Answers.of, same c mem]

theorem Forest.counted_congr {f : Forest}
    (same : ∀ p ∈ f.nodes, ∀ c ∈ p.2.children, given.lookup c = given'.lookup c) :
    f.counted given = f.counted given' :=
  congrArg List.sum (List.map_congr_left fun p mem => Node.counted_congr (same p mem))

end Congruence

section Counting

variable {given later : Answers}

theorem Answers.changes_append (given : Answers) (hs hs' : List Handle) :
    given.changes (hs ++ hs') = given.changes hs + given.changes hs' :=
  List.countP_append

theorem Answers.changes_eq_zero {hs : List Handle} (absent : ∀ c ∈ hs, c ∉ given.keys) :
    given.changes hs = 0 := by
  rw [Answers.changes, List.countP_eq_zero]
  intro c mem
  simp [Answers.of_not_mem (absent c mem)]

theorem Row.counted_eq_zero {row : Row} (absent : ∀ c ∈ row.held, c ∉ given.keys) :
    row.counted given = 0 := by
  rw [Row.counted, Answers.changes_eq_zero absent, ite_self]

theorem Row.sum_counted_settled {rows : List Row} (settled : ∀ row ∈ rows, row.Settled given) :
    (rows.map (Row.counted given)).sum = given.changes (rows.flatMap Row.held) := by
  induction rows with
  | nil => rfl
  | cons row rows ih =>
    rw [List.forall_mem_cons] at settled
    rw [List.map_cons, List.sum_cons, List.flatMap_cons, Answers.changes_append, ih settled.2,
      Row.counted, if_pos settled.1]

theorem Row.sum_counted_eq_zero {rows : List Row}
    (absent : ∀ c ∈ rows.flatMap Row.held, c ∉ given.keys) :
    (rows.map (Row.counted given)).sum = 0 := by
  apply List.sum_eq_zero_iff_forall_eq_nat.mpr
  intro x mem
  obtain ⟨row, there, rfl⟩ := List.mem_map.mp mem
  exact Row.counted_eq_zero fun c held => absent c (List.mem_flatMap.mpr ⟨row, there, held⟩)

/-- All children were answered for. -/
theorem Node.counted_of_answered {n : Node} (answered : ∀ c ∈ n.children, (given.lookup c).isSome) :
    n.counted given = given.changes n.children := by
  apply Row.sum_counted_settled
  intro row mem
  right
  intro c held
  exact answered c (List.mem_flatMap.mpr ⟨row, mem, held⟩)

theorem Node.eq_of_mem_one {n : Node} {k i : Nat} {lane : Lane} {id : NodeId}
    (here : n.tag.lanes[k]? = some lane) (one : lane.arity = .one)
    (there : n.place? k i = some (some id)) :
    ∀ c ∈ lane.held (n.places k), c = ⟨lane.category, id⟩ := by
  intro c mem
  obtain ⟨place, mem, shown⟩ := List.mem_filterMap.mp mem
  obtain ⟨j, atJ⟩ := List.getElem?_of_mem mem
  rw [n.getElem?_places] at atJ
  have first : ∀ {j place}, n.place? k j = some place → j = 0 := by
    intro j place found
    cases j with
    | zero => rfl
    | succ j => rw [Node.place?_succ_of_one here one j] at found; cases found
  obtain rfl := first atJ
  obtain rfl := first there
  rw [there] at atJ
  cases atJ
  cases shown
  rfl

/-- The pass failed below a child: the lanes before it are settled, and its own lane is not counted. -/
theorem Node.counted_of_cut_short {n : Node} {k i : Nat} {lane : Lane} {id : NodeId}
    (here : n.tag.lanes[k]? = some lane) (there : n.place? k i = some (some id))
    (done : ∀ c ∈ n.settled k, (given.lookup c).isSome)
    (open_ : (⟨lane.category, id⟩ : Handle) ∉ given.keys)
    (ahead : ∀ c ∈ n.onward k (i + 1), c ∉ given.keys) :
    n.counted given = given.changes (n.settled k) := by
  have rows : n.rows = n.rows.take k ++ (⟨lane, lane.held (n.places k)⟩ :: n.rows.drop (k + 1)) := by
    have split : n.rows.drop k = _ := List.drop_eq_getElem?_toList_append
    rw [Node.getElem?_rows here] at split
    rw [← List.singleton_append, ← Option.toList_some, ← split, List.take_append_drop]
  have before : ((n.rows.take k).map (Row.counted given)).sum = given.changes (n.settled k) := by
    apply Row.sum_counted_settled
    intro row mem
    right
    intro c held
    exact done c (List.mem_flatMap.mpr ⟨row, mem, held⟩)
  have after : ((n.rows.drop (k + 1)).map (Row.counted given)).sum = 0 :=
    Row.sum_counted_eq_zero fun c mem => ahead c (List.mem_append_right _ mem)
  have own : Row.counted given ⟨lane, lane.held (n.places k)⟩ = 0 := by
    rw [Row.counted]
    split
    next settled =>
      rcases settled with one | all
      · apply Answers.changes_eq_zero
        intro c mem
        rw [Node.eq_of_mem_one here one there c mem]
        exact open_
      · have answered := all ⟨lane.category, id⟩ (Lane.mem_held lane (n.getElem?_places k i ▸ there))
        rw [Answers.lookup_of_not_mem open_] at answered
        cases answered
    next => rfl
  rw [Node.counted, rows, List.map_append, List.sum_append, List.map_cons, List.sum_cons, before, own,
    after]
  rfl

theorem Forest.counted_append (given : Answers) (f g : Forest) :
    (f.append g).counted given = f.counted given + g.counted given := by
  rw [Forest.counted, Forest.nodes_append, List.map_append, List.sum_append]
  rfl

theorem Forest.counted_eq_zero {f : Forest}
    (absent : ∀ p ∈ f.nodes, ∀ c ∈ p.2.children, c ∉ given.keys) : f.counted given = 0 := by
  apply List.sum_eq_zero_iff_forall_eq_nat.mpr
  intro x mem
  obtain ⟨p, there, rfl⟩ := List.mem_map.mp mem
  exact Row.sum_counted_eq_zero (absent p there)

/-- Answers for one forest do not bear on another one beside it. -/
theorem Unfolds.lookup_left {a : Arena} {hs hs' : List Handle} {f g : Forest} (unfolds : Unfolds a ∅ hs f)
    (unfolds' : Unfolds a ∅ hs' g) (apart : f.ids.Disjoint g.ids)
    (keys : ∀ h ∈ later.keys, h ∈ g.handles) {c : Handle} (mem : c ∈ f.preorder) :
    (given ++ later).lookup c = given.lookup c :=
  Answers.lookup_append_left fun key => unfolds.not_mem_handles unfolds' apart mem (keys c key)

theorem Unfolds.lookup_right {a : Arena} {hs hs' : List Handle} {f g : Forest}
    (unfolds : Unfolds a ∅ hs f) (unfolds' : Unfolds a ∅ hs' g) (apart : f.ids.Disjoint g.ids)
    (keys : ∀ h ∈ given.keys, h ∈ f.handles) {c : Handle} (mem : c ∈ g.preorder) :
    (given ++ later).lookup c = later.lookup c :=
  Answers.lookup_append_right fun key => unfolds'.not_mem_handles unfolds apart.symm mem (keys c key)

end Counting

theorem Arena.node_allocAll_of_ok {a : Arena} {id : NodeId} {n : Node} (fresh : List Node)
    (stored : a.node id = .ok n) : (a.allocAll fresh).node id = .ok n := by
  induction fresh generalizing a with
  | nil => exact stored
  | cons m fresh ih => exact ih (Arena.node_alloc_of_ok m stored)

/-- The stubs of the forest do not come to life while a pass is under way: it is quiet, that is, it
allocates nothing, or the nodes of the stubs exist and are of another category. -/
def Forest.Steady (f : Forest) (quiet : Prop) (a : Arena) : Prop :=
  quiet ∨ ∀ h ∈ f.stubs, ∃ n, a.node h.node = .ok n

/-- What happened between two worlds as far as nodes and the count are concerned: nodes not in `ids` are
as before, no node has changed its variant, and `count` more places were counted. In a quiet pass
there are no more nodes than before. -/
structure World.Touched (w : World (Tally σ)) (ids : List NodeId) (quiet : Prop) (count : Nat)
    (w' : World (Tally σ)) : Prop where
  frame : ∀ {id n}, id ∉ ids → w.arena.node id = .ok n → w'.arena.node id = .ok n
  tag : ∀ {id n}, w.arena.node id = .ok n → ∃ n', w'.arena.node id = .ok n' ∧ n'.tag = n.tag
  size : quiet → w'.arena.size = w.arena.size
  replaced : w'.state.replaced = w.state.replaced + UInt64.ofNat count

namespace World.Touched

variable {w w' w'' : World (Tally σ)} {ids ids' : List NodeId} {quiet : Prop} {x y : Nat}

theorem of_same (arena : w'.arena = w.arena) (state : w'.state = w.state) :
    w.Touched ids quiet 0 w' where
  frame _ stored := by rwa [arena]
  tag {_ n} stored := ⟨n, by rwa [arena], rfl⟩
  size _ := by rw [arena]
  replaced := by simp [state]

theorem trans (first : w.Touched ids quiet x w') (second : w'.Touched ids' quiet y w'') :
    w.Touched (ids ++ ids') quiet (x + y) w'' where
  frame apart stored := by
    rw [List.mem_append, not_or] at apart
    exact second.frame apart.2 (first.frame apart.1 stored)
  tag stored := by
    obtain ⟨n', stored', same⟩ := first.tag stored
    obtain ⟨n'', stored'', same'⟩ := second.tag stored'
    exact ⟨n'', stored'', same'.trans same⟩
  size still := (second.size still).trans (first.size still)
  replaced := by rw [second.replaced, first.replaced, UInt64.ofNat_add, UInt64.add_assoc]

theorem mono (touched : w.Touched ids quiet x w') (more : ids ⊆ ids') : w.Touched ids' quiet x w' :=
  { touched with frame := fun apart => touched.frame fun mem => apart (more mem) }

theorem bump (touched : w.Touched ids quiet x w') (y : Nat) :
    w.Touched ids quiet (x + y) (w'.bump y) where
  frame := touched.frame
  tag := touched.tag
  size := touched.size
  replaced := by
    rw [World.bump, touched.replaced, UInt64.ofNat_add, UInt64.add_assoc]

/-- Storing another record in a node of the same variant. -/
theorem put (touched : w.Touched ids quiet x w') {owner : NodeId} {n n' : Node} (mem : owner ∈ ids)
    (stored : w'.arena.node owner = .ok n) (tag : n'.tag = n.tag) :
    w.Touched ids quiet x { w' with arena := w'.arena.put n'.tag owner n'.record } where
  frame {id m} apart stored := by
    have other : owner ≠ id := fun same => apart (same ▸ mem)
    exact (Arena.node_put_ne other).trans (touched.frame apart stored)
  tag {id m} before := by
    obtain ⟨m', after, same⟩ := touched.tag before
    by_cases other : owner = id
    · subst other
      obtain rfl : n = m' := Except.ok.inj (stored.symm.trans after)
      exact ⟨_, Arena.node_put_self stored, tag.trans same⟩
    · exact ⟨m', (Arena.node_put_ne other).trans after, same⟩
  size still := (Arena.size_put _).trans (touched.size still)
  replaced := touched.replaced

theorem answered (touched : w.Touched ids quiet x w') {answer : Answer σ}
    (still : quiet → answer.fresh = []) : w.Touched ids quiet x (w'.answered answer) where
  frame apart stored := Arena.node_allocAll_of_ok _ (touched.frame apart stored)
  tag stored := by
    obtain ⟨n', stored', same⟩ := touched.tag stored
    exact ⟨n', Arena.node_allocAll_of_ok _ stored', same⟩
  size now := by
    rw [World.answered, still now]
    exact touched.size now
  replaced := touched.replaced

/-- A stub stays one when no nodes are added, or when its node exists already. -/
theorem not_shows (touched : w.Touched ids quiet x w') {h : Handle} (bad : ∀ n, ¬ w.arena.Shows h n)
    (steady : quiet ∨ ∃ n, w.arena.node h.node = .ok n) : ∀ n, ¬ w'.arena.Shows h n := by
  intro n' good
  have stored : ∃ n, w.arena.node h.node = .ok n := by
    rcases steady with still | stored
    · have found := (Array.getElem?_eq_some_iff.mp (Arena.node_eq_ok_iff.mp good.1)).choose
      have size : w'.arena.nodes.size = w.arena.nodes.size := touched.size still
      rw [size] at found
      exact ⟨_, Arena.node_eq_ok_iff.mpr (Array.getElem?_eq_getElem found)⟩
    · exact stored
  obtain ⟨n, stored⟩ := stored
  obtain ⟨n'', stored', same⟩ := touched.tag stored
  obtain rfl : n' = n'' := Except.ok.inj (good.1.symm.trans stored')
  refine bad n ⟨stored, ?_⟩
  rw [Node.category, ← same]
  exact good.2

/-- An unfolding that is not touched is still there. -/
theorem unfolds (touched : w.Touched ids quiet x w') {hs : List Handle} {f : Forest}
    (before : Unfolds w.arena ∅ hs f) (apart : f.ids.Disjoint ids)
    (steady : f.Steady quiet w.arena) : Unfolds w'.arena ∅ hs f := by
  refine before.transfer (fun p mem => ?_) (fun h mem => ?_)
  · exact touched.frame (fun touched => apart (List.mem_map_of_mem mem) touched)
      (before.shows_of_mem p mem).1
  · exact touched.not_shows (before.not_shows_of_mem_stubs h mem)
      (steady.imp id fun stored => stored h mem)

theorem steady (touched : w.Touched ids quiet x w') {f : Forest} (before : f.Steady quiet w.arena) :
    f.Steady quiet w'.arena := by
  refine before.imp id fun stored h mem => ?_
  obtain ⟨n, stored⟩ := stored h mem
  obtain ⟨n', stored', -⟩ := touched.tag stored
  exact ⟨n', stored'⟩

end World.Touched

end ProgramTree
