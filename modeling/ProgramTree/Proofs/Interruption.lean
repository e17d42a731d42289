import Mathlib.Data.List.Permutation
import ProgramTree.Proofs.Conduct
import ProgramTree.Proofs.Replacement

/-!
What a failed transformation leaves behind. A pass that answers fails at one handle, and the fault goes
up unchanged through all calls that are still open. The handles with open calls are those on the way
from the root to the handle at fault. They and all handles not yet entered keep their places, and every
other handle has been replaced by its answer (`Transformer.answering_interrupted`).

A pass may allocate, and then a dangling handle of the tree can come to life before it is entered. After
that nothing of this need hold (`Transformer.wakingSample_overwritten`). The theorem is about passes that
enter no node that they have allocated (`Unvisited`). Such a pass can be followed in the arena cut off at
its first size (`Arena.crop`), where it does not allocate at all.
-/

namespace ProgramTree

namespace Arena

variable {a b : Arena} {size : Nat} {id : NodeId} {n : Node} {h : Handle}

/-- The first nodes of an arena. -/
def crop (a : Arena) (size : Nat) : Arena :=
  ⟨a.nodes.take size⟩

theorem node_crop_iff : (a.crop size).node id = .ok n ↔ id.index < size ∧ a.node id = .ok n := by
  rw [node_eq_ok_iff, node_eq_ok_iff, crop, Array.take_eq_extract, Array.getElem?_extract]
  grind

theorem shows_crop_iff : (a.crop size).Shows h n ↔ h.node.index < size ∧ a.Shows h n := by
  rw [Shows, Shows, node_crop_iff, and_assoc]

theorem crop_self (a : Arena) : a.crop a.size = a := by
  simp [crop, Arena.size]

theorem crop_alloc (large : size ≤ a.size) (n : Node) : (a.alloc n).2.crop size = a.crop size := by
  have large : size ≤ a.nodes.size := large
  simp [crop, alloc, large]

theorem crop_allocAll (large : size ≤ a.size) (ns : List Node) :
    (a.allocAll ns).crop size = a.crop size := by
  induction ns generalizing a with
  | nil => rfl
  | cons n ns ih =>
    have larger : size ≤ (a.alloc n).2.size := by
      rw [size_alloc]
      omega
    exact (ih larger).trans (crop_alloc large n)

theorem crop_put {t : Tag} (record : Record t.fields) :
    (a.put t id record).crop size = (a.crop size).put t id record := by
  rw [crop, crop, put, put, Arena.mk.injEq]
  grind

theorem Evolves.size_le (evolves : a.Evolves b) : a.size ≤ b.size := by
  induction evolves with
  | refl => exact Nat.le_refl _
  | alloc n _ ih =>
    rw [size_alloc]
    omega
  | edit _ edited ih =>
    obtain ⟨_, _, _, _, rfl⟩ := edit_cases edited
    rwa [size_put]

theorem Evolves.allocAll (a : Arena) (ns : List Node) : a.Evolves (a.allocAll ns) := by
  induction ns generalizing a with
  | nil => exact .refl
  | cons n ns ih => exact (Evolves.alloc n .refl).trans (ih _)

end Arena

namespace Moment

def fault? : Moment Transformer.Reply → Option Fault
  | .ended _ (.error e) => some e
  | _ => none

/-- The handle whose entry point has failed. -/
def failed? : Moment Transformer.Reply → Option Handle
  | .ended (.enter h) (.error _) => some h
  | _ => none

end Moment

section Account

variable {past past' past'' : List (Moment Transformer.Reply)} {e : Fault} {path : List Handle}

/-- From `past` to `past'` no call has failed. -/
def Calm (past past' : List (Moment Transformer.Reply)) : Prop :=
  ∃ more, past' = past ++ more ∧ ∀ m ∈ more, m.fault? = none

/-- From `past` to `past'` no call has failed at first, and then all that happened is that calls have
ended with the fault `e`; `path` are the handles whose entry points have done so, the last one first. -/
def Broken (past past' : List (Moment Transformer.Reply)) (e : Fault) (path : List Handle) : Prop :=
  ∃ before after, past' = past ++ before ++ after ∧ (∀ m ∈ before, m.fault? = none) ∧
    (∀ m ∈ after, m.fault? = some e) ∧ after.filterMap Moment.failed? = path.reverse

namespace Calm

theorem trans (first : Calm past past') (second : Calm past' past'') : Calm past past'' := by
  obtain ⟨more, rfl, none⟩ := first
  obtain ⟨more', rfl, none'⟩ := second
  exact ⟨more ++ more', List.append_assoc .., List.forall_mem_append.mpr ⟨none, none'⟩⟩

theorem began (past : List (Moment Transformer.Reply)) (c : Call) : Calm past (past ++ [.began c]) :=
  ⟨_, rfl, List.forall_mem_singleton.mpr rfl⟩

theorem ended (calm : Calm past past') (c : Call) (x : Transformer.Reply c) :
    Calm past (past' ++ [.ended c (.ok x)]) :=
  calm.trans ⟨_, rfl, List.forall_mem_singleton.mpr rfl⟩

theorem broken (calm : Calm past past') (e : Fault) : Broken past past' e [] := by
  obtain ⟨more, rfl, none⟩ := calm
  exact ⟨more, [], (List.append_nil _).symm, none, List.forall_mem_nil _, rfl⟩

theorem entered_subset (calm : Calm past past') : entered past ⊆ entered past' := by
  obtain ⟨more, rfl, -⟩ := calm
  rw [entered, entered, List.filterMap_append]
  exact List.subset_append_left _ _

end Calm

namespace Broken

theorem after_calm (calm : Calm past past') (broken : Broken past' past'' e path) :
    Broken past past'' e path := by
  obtain ⟨more, rfl, none⟩ := calm
  obtain ⟨before, after, rfl, none', rest⟩ := broken
  exact ⟨more ++ before, after, by simp, List.forall_mem_append.mpr ⟨none, none'⟩, rest⟩

theorem ended (broken : Broken past past' e path) (c : Call) :
    Broken past (past' ++ [.ended c (.error e)]) e ((match c with
      | .enter h => [h]
      | _ => []) ++ path) := by
  obtain ⟨before, after, rfl, none, all, failed⟩ := broken
  refine ⟨before, after ++ [.ended c (.error e)], by simp, none, ?_, ?_⟩
  · exact List.forall_mem_append.mpr ⟨all, List.forall_mem_singleton.mpr rfl⟩
  · rw [List.filterMap_append, failed, List.reverse_append]
    cases c <;> rfl

theorem entered_subset (broken : Broken past past' e path) : entered past ⊆ entered past' := by
  obtain ⟨before, after, rfl, -⟩ := broken
  rw [List.append_assoc, entered, entered, List.filterMap_append]
  exact List.subset_append_left _ _

end Broken

end Account

namespace Forest

/-- The node of `h` has the child `c`. -/
def Parent (f : Forest) (h c : Handle) : Prop :=
  ∃ n, (h, n) ∈ f.nodes ∧ c ∈ n.children

end Forest

variable {σ : Type}

def World.crop (w : World σ) (size : Nat) : World σ :=
  { w with arena := w.arena.crop size }

theorem World.crop_answered {w : World (Tally σ)} {size : Nat} (large : size ≤ w.arena.size)
    (x : Answer σ) : (w.answered x).crop size = (w.crop size).answered ⟨[], x.result, x.own⟩ := by
  rw [crop, answered, Arena.crop_allocAll large]
  rfl

theorem World.fill_crop {w w' : World σ} {size k i : Nat} {owner new : NodeId} {n : Node}
    (stored : w.arena.node owner = .ok n)
    (filled : World.fill n.tag owner k i new (w.crop size) = (.ok true, w')) :
    (∃ old, n.place? k i = some old) ∧
      w' = World.crop { w with arena := w.arena.put n.tag owner (n.fill k i new).record } size := by
  cases found : (w.crop size).arena.node owner with
  | error e => simp [World.fill, Arena.get, found, bind, Except.bind] at filled
  | ok m =>
    obtain rfl : n = m := Except.ok.inj (stored.symm.trans (Arena.node_crop_iff.mp found).2)
    cases there : n.place? k i with
    | none =>
      rw [World.fill_of_none found there] at filled
      cases filled
    | some old =>
      rw [World.fill_of_node found there] at filled
      cases filled
      refine ⟨⟨old, rfl⟩, ?_⟩
      exact congrArg (fun a => { w with arena := a }) (Arena.crop_put _).symm

/-- None of the nodes allocated behind the first `size` ones has been entered. -/
def Unvisited (size : Nat) (past : List (Moment Transformer.Reply)) (w : World σ) : Prop :=
  ∀ h ∈ entered past, size ≤ h.node.index → w.arena.size ≤ h.node.index

theorem Unvisited.earlier {size : Nat} {past past' : List (Moment Transformer.Reply)} {w w' : World σ}
    (fresh : Unvisited size past' w') (shown : entered past ⊆ entered past')
    (evolves : w.arena.Evolves w'.arena) : Unvisited size past w := by
  intro h mem beyond
  have later := fresh h (shown mem) beyond
  have grown := evolves.size_le
  omega

theorem Unvisited.of_ended {size : Nat} {past : List (Moment Transformer.Reply)} {w : World σ} {c : Call}
    {r : Except Fault (Transformer.Reply c)} (fresh : Unvisited size (past ++ [.ended c r]) w) :
    Unvisited size past w := by
  rwa [Unvisited, entered_ended] at fresh

/-- A handle that was entered is good in the cropped arena if it is good. -/
theorem Unvisited.shows_crop {size : Nat} {past : List (Moment Transformer.Reply)} {w : World σ}
    (fresh : Unvisited size past w) {h : Handle} (mem : h ∈ entered past) {n : Node}
    (shown : w.arena.Shows h n) : (w.crop size).arena.Shows h n := by
  refine Arena.shows_crop_iff.mpr ⟨?_, shown⟩
  by_contra beyond
  have dangling := fresh h mem (by omega)
  have inside := Arena.lt_size_of_node shown.1
  omega

namespace Transformer

variable {choose : Handle → NodeId → World (Tally σ) → Answer σ} {size : Nat}

/-- Keeps every node. In a cropped arena any pass looks as quiet as this one. -/
def idle (_ : Handle) (kept : NodeId) (w : World (Tally σ)) : Answer σ :=
  ⟨[], .ok kept, w.state.own⟩

def Still (σ : Type) : Prop :=
  Quiet (idle : Handle → NodeId → World (Tally σ) → Answer σ)

theorem still (σ : Type) : Still σ :=
  fun _ _ _ => rfl

/-- The fault was raised at `h`: by its dispatch, or by the pass when it was to answer for `h`. -/
def Raised (choose : Handle → NodeId → World (Tally σ) → Answer σ) (h : Handle) (e : Fault)
    (w' : World (Tally σ)) : Prop :=
  w'.arena.Blames h e ∨ ∃ kept w, (choose h kept w).result = .error e ∧ w' = w.answered (choose h kept w)

/-- The pass over the forest was interrupted: `seen` are the handles that it has entered, `later` those
that it has not come to, and `path` those whose calls were open when the fault was raised. -/
structure Interrupted (choose : Handle → NodeId → World (Tally σ) → Answer σ) (size : Nat) (f : Forest)
    (w : World (Tally σ)) (known : List Handle) (past past' : List (Moment Reply)) (e : Fault)
    (w' : World (Tally σ)) (path : List Handle) (given : Answers) (seen later : List Handle) : Prop where
  progress : Progress (Still σ) f (w.crop size) past past' given (w'.crop size)
  entered : entered past' = known ++ seen
  preorder : f.preorder = seen ++ later
  once : seen.Perm (given.keys ++ path)
  distinct : given.keys.Nodup
  apart : ∀ c ∈ path ++ later, c ∉ given.keys
  chain : path.IsChain f.Parent
  raised : ∃ h, path.getLast? = some h ∧ Raised choose h e w'

namespace Site

variable {s : Site σ} {gone t rest : Forest} {given more : Answers} {k i x : Nat} {lane : Lane}
  {id new : NodeId} {past past' : List (Moment Reply)} {w w' : World (Tally σ)} {e : Fault}

/-- The site is where a call begins, in the cropped world. -/
structure At (s : Site σ) (size : Nat) (past : List (Moment Reply)) (w : World (Tally σ)) : Prop where
  idle : s.choose = idle
  start : s.start = w.crop size
  answers : ProgramTree.answers s.before = ProgramTree.answers past
  entered : ProgramTree.entered s.before = ProgramTree.entered past
  fits : s.Fits

theorem At.quiet_eq (placed : s.At size past w) : s.quiet = Still σ := by
  rw [Site.quiet, placed.idle]
  rfl

theorem At.quiet (placed : s.At size past w) : s.quiet :=
  placed.quiet_eq ▸ still σ

theorem At.progress (placed : s.At size past w) {f : Forest}
    (progress : Progress s.quiet f s.start s.before past' given w') :
    Progress (Still σ) f (w.crop size) past past' given w' := by
  rw [placed.quiet_eq, placed.start] at progress
  exact progress.since placed.answers

theorem At.stored (placed : s.At size past w) : w.arena.node s.handle.node = .ok s.node := by
  have found := placed.fits.good.1
  rw [placed.start] at found
  exact (Arena.node_crop_iff.mp found).2

theorem At.tag {t : Tag} {owner : NodeId} (placed : s.At size past w)
    (allowed : (Call.walk t owner).Allowed w.arena) (same : s.handle.node = owner) : s.node.tag = t := by
  obtain ⟨n, stored, tag⟩ := allowed
  have found := placed.stored
  rw [same, stored] at found
  rw [← Except.ok.inj found, tag]

theorem Under.faces (under : s.Under k i x past w) (fits : s.Fits) (quiet : s.quiet)
    (here : s.node.tag.lanes[k]? = some lane) (there : s.node.place? k i = some (some id)) :
    ∃ gone t rest given, s.Walked gone (t.append rest) given k i x past w ∧
      rest.Each (Transforms s.choose) ∧
      w.arena.node s.handle.node = .ok (s.node.mapChildren given.of) ∧
      s.Faces gone t rest ⟨lane.category, id⟩ k i ∧ Unfolds w.arena ∅ [⟨lane.category, id⟩] t := by
  obtain ⟨gone, left, given, walked, each, owner⟩ := under
  obtain ⟨t, rest, rfl, faces, split⟩ := walked.faces fits here there
  have apart : t.ids.Disjoint (s.handle.node :: gone.ids) :=
    List.disjoint_cons_right.mpr ⟨faces.owner.2.1, faces.gone_tree.symm⟩
  exact ⟨gone, t, rest, given, walked, (split _ each).2, owner, faces,
    walked.touched.unfolds faces.unfolds_tree apart (.inl quiet)⟩

/-- The places to come are read as they were, also in the whole arena. -/
theorem Under.reads (under : s.Under k i x past (w.crop size)) (fits : s.Fits) :
    World.place? s.node.tag s.handle.node k i w = .ok (s.node.place? k i) := by
  obtain ⟨gone, left, given, walked, -, owner⟩ := under
  have cropped := walked.reads fits owner
  have whole := (Arena.node_crop_iff.mp owner).2
  exact (World.place?_of_node whole k i).trans ((World.place?_of_node owner k i).symm.trans cropped)

theorem Under.skip (under : s.Under k i x past w) (there : s.node.place? k i = some none) :
    s.Under k (i + 1) x past w := by
  obtain ⟨gone, left, given, walked, each, owner⟩ := under
  exact ⟨gone, left, given, walked.skip there, each, owner⟩

theorem Under.next (under : s.Under k i x past w) (here : s.node.tag.lanes[k]? = some lane)
    (there : s.node.place? k i = none) : s.Under (k + 1) 0 0 past (w.bump x) := by
  obtain ⟨gone, left, given, walked, each, owner⟩ := under
  exact ⟨gone, left, given, walked.next here there, each, owner⟩

theorem Walked.preorder_perm {left : Forest} (walked : s.Walked gone left given k i x past w) :
    gone.preorder.Perm given.keys := by
  rw [walked.keys, ← Forest.handles_eq_preorder walked.stubs]
  exact gone.postorder_perm.symm

theorem Walked.interrupted {known path seen later : List Handle} (placed : s.At size past w)
    {past₁ : List (Moment Reply)} {w₁ : World (Tally σ)}
    (walked : s.Walked gone (t.append rest) given k i x past₁ (w₁.crop size))
    (owner : (w₁.crop size).arena.node s.handle.node = .ok (s.node.mapChildren given.of))
    (here : s.node.tag.lanes[k]? = some lane) (there : s.node.place? k i = some (some id))
    (faces : s.Faces gone t rest ⟨lane.category, id⟩ k i)
    (start : ProgramTree.entered past = known ++ [s.handle])
    (cut : Interrupted choose size t w₁ (ProgramTree.entered past₁) past₁ past' e w'
      (⟨lane.category, id⟩ :: path) more seen later) :
    Interrupted choose size s.tree w known past past' e w' (s.handle :: ⟨lane.category, id⟩ :: path)
      (given ++ more) (s.handle :: (gone.preorder ++ seen)) (later ++ rest.preorder) := by
  have below : Progress s.quiet t (w₁.crop size) past₁ past' more (w'.crop size) :=
    placed.quiet_eq ▸ cut.progress
  have joins := walked.joins faces below
  have kids : s.kids = (gone.append t).append rest := by rw [walked.kids, Forest.append_assoc]
  have preorder : s.tree.preorder =
      s.handle :: (gone.preorder ++ seen) ++ (later ++ rest.preorder) := by
    simp [tree, Forest.preorder, kids, Forest.preorder_append, cut.preorder]
  have inside : ∀ c ∈ (⟨lane.category, id⟩ :: path) ++ later, c ∈ t.preorder := by
    intro c mem
    rw [cut.preorder, List.mem_append]
    refine (List.mem_append.mp mem).imp_left fun mem => ?_
    exact cut.once.mem_iff.mpr (List.mem_append_right _ mem)
  have unanswered : (⟨lane.category, id⟩ : Handle) ∉ more.keys := cut.apart _ List.mem_cons_self
  have stored := below.touched.frame faces.owner.2.1 owner
  refine ⟨?progress, ?entered, preorder, ?once, ?distinct, ?apart, ?chain, ?raised⟩
  case progress =>
    exact placed.progress (walked.fail here there faces joins below.keys unanswered stored)
  case entered =>
    rw [cut.entered, walked.entered, placed.entered, start]
    simp
  case once =>
    have both := walked.preorder_perm.append cut.once
    rw [← List.append_assoc, ← Answers.keys_append] at both
    exact (both.cons s.handle).trans List.perm_middle.symm
  case distinct =>
    have nodup := (List.nodup_cons.mp placed.fits.distinct).2
    rw [walked.kids, Forest.ids_append] at nodup
    rw [Answers.keys_append, walked.keys]
    refine (Forest.nodup_postorder (List.Nodup.of_append_left nodup)).append cut.distinct ?_
    intro c done key
    rw [Forest.mem_postorder] at done
    exact faces.unfolds_gone.not_mem_handles faces.unfolds_tree faces.gone_tree
      ((gone.mem_preorder_iff c).mpr (.inl done)) (below.keys c key)
  case apart =>
    intro c mem
    rw [← List.append_assoc, List.cons_append, List.mem_append, List.mem_cons] at mem
    rcases mem with (rfl | mem) | mem
    · exact walked.not_answered ⟨faces.owner.1, faces.owner.2.1⟩ below.keys
    · intro key
      rcases Answers.mem_keys_append.mp key with key | key
      · exact faces.unfolds_tree.not_mem_handles faces.unfolds_gone faces.gone_tree.symm (inside c mem)
          (walked.handles_of_keys key)
      · exact cut.apart c mem key
    · exact joins.after c mem
  case chain =>
    refine List.isChain_cons_cons.mpr ⟨⟨s.node, ?_, ?_⟩, cut.chain.imp ?_⟩
    · rw [nodes_tree]
      exact List.mem_cons_self
    · rw [faces.children]
      exact List.mem_append_right _ List.mem_cons_self
    · rintro h c ⟨n, mem, child⟩
      refine ⟨n, ?_, child⟩
      rw [nodes_tree, kids, Forest.nodes_append, Forest.nodes_append]
      exact .tail _ (List.mem_append_left _ (List.mem_append_right _ mem))
  case raised => exact cut.raised

/-- The child that a walk has come to was transformed. -/
theorem Under.lands {past₁ : List (Moment Reply)} {w₁ : World (Tally σ)}
    (under : s.Under k i x past₁ (w₁.crop size)) (placed : s.At size past w)
    (here : s.node.tag.lanes[k]? = some lane) (there : s.node.place? k i = some (some id))
    (done : ∀ f, Unfolds (w₁.crop size).arena ∅ [⟨lane.category, id⟩] f → f.ids.Nodup →
      Succeeds (Still σ) f ⟨lane.category, id⟩ (w₁.crop size) past₁ past' new (w'.crop size)) :
    if new = id then s.Under k (i + 1) x past' (w'.crop size)
    else ∃ w'', World.fill s.node.tag s.handle.node k i new (w'.crop size) = (.ok true, w'') ∧
      s.Under k (i + 1) (x + 1) past' w'' := by
  obtain ⟨gone, t, rest, given, walked, each, owner, faces, unfolds⟩ :=
    under.faces placed.fits placed.quiet here there
  have succeeds := done t unfolds faces.distinct
  rw [← placed.quiet_eq] at succeeds
  exact placed.fits.under_of_succeeds walked each owner here there faces succeeds

/-- The pass was interrupted in the tree of the child that a walk has come to. -/
theorem Under.breaks {known path : List Handle} {past₁ : List (Moment Reply)} {w₁ : World (Tally σ)}
    (under : s.Under k i x past₁ (w₁.crop size)) (placed : s.At size past w)
    (here : s.node.tag.lanes[k]? = some lane) (there : s.node.place? k i = some (some id))
    (start : ProgramTree.entered past = known ++ [s.handle])
    (cut : ∀ f, Unfolds (w₁.crop size).arena ∅ [⟨lane.category, id⟩] f → f.ids.Nodup →
      ∃ given seen later, Interrupted choose size f w₁ (ProgramTree.entered past₁) past₁ past' e w'
        (⟨lane.category, id⟩ :: path) given seen later) :
    ∃ given seen later, Interrupted choose size s.tree w known past past' e w'
      (s.handle :: ⟨lane.category, id⟩ :: path) given seen later := by
  obtain ⟨gone, t, rest, given, walked, -, owner, faces, unfolds⟩ :=
    under.faces placed.fits placed.quiet here there
  obtain ⟨more, seen, later, cut⟩ := cut t unfolds faces.distinct
  exact ⟨_, _, _, walked.interrupted placed owner here there faces start cut⟩

end Site

/-- The terms of a pass that answers, begun in an arena of `size` nodes. As long as it enters none of the
nodes that it has allocated, a call does in the cropped arena what it is to do to the tree there. -/
def followed (choose : Handle → NodeId → World (Tally σ) → Answer σ) (size : Nat) :
    Terms (World (Tally σ)) (Moment Reply) Reply where
  pre c past w := size ≤ w.arena.size ∧ c.Allowed w.arena ∧ ∀ h, c = .dispatch h → h ∈ entered past
  good c past w past' x w' := w.arena.Evolves w'.arena ∧ Calm past past' ∧ (Unvisited size past' w' →
    match c, x with
    | .enter h, new => ∀ f, Unfolds (w.crop size).arena ∅ [h] f → f.ids.Nodup →
        Succeeds (Still σ) f h (w.crop size) past past' new (w'.crop size)
    | .dispatch h, _ => w.arena.Good h ∧ ∀ s : Site σ, s.handle = h → s.At size past w →
        s.Under s.node.tag.lanes.length 0 0 past' (w'.crop size)
    | .walk _ owner, _ => ∀ s : Site σ, s.handle.node = owner → s.At size past w →
        s.Under s.node.tag.lanes.length 0 0 past' (w'.crop size))
  bad c past w past' e w' := w.arena.Evolves w'.arena ∧ ∃ path, Broken past past' e path ∧
    (Unvisited size past' w' →
      match c with
      | .enter h => ∃ below, path = h :: below ∧
          ∀ f, Unfolds (w.crop size).arena ∅ [h] f → f.ids.Nodup → ∃ given seen later,
            Interrupted choose size f w (entered past) past past' e w' path given seen later
      | .dispatch h => ∀ f known, Unfolds (w.crop size).arena ∅ [h] f → f.ids.Nodup →
          entered past = known ++ [h] → ∃ given seen later,
            Interrupted choose size f w known past past' e w' (h :: path) given seen later
      | .walk _ owner => ∀ (s : Site σ) known, s.handle.node = owner → s.At size past w →
          entered past = known ++ [s.handle] → ∃ given seen later,
            Interrupted choose size s.tree w known past past' e w' (s.handle :: path) given seen later)

theorem followed_roams {t : Tag} {owner : NodeId} {w : World (Tally σ)} (past : List (Moment Reply))
    (large : size ≤ w.arena.size) (allowed : (Call.walk t owner).Allowed w.arena) :
    Roams (followed choose size) t owner
      (fun k i x past' w' => w.arena.Evolves w'.arena ∧ Calm past past' ∧ (Unvisited size past' w' →
        ∀ s : Site σ, s.handle.node = owner → s.At size past w → s.Under k i x past' (w'.crop size)))
      (fun past' e w' => w.arena.Evolves w'.arena ∧ ∃ path, Broken past past' e path ∧
        (Unvisited size past' w' → ∀ (s : Site σ) known, s.handle.node = owner → s.At size past w →
          entered past = known ++ [s.handle] → ∃ given seen later,
            Interrupted choose size s.tree w known past past' e w' (s.handle :: path) given seen
              later)) := by
  -- The walk reads what the site holds, in the lanes of its variant.
  have lanes : ∀ {s : Site σ}, s.handle.node = owner → s.At size past w → s.node.tag = t :=
    fun same placed => placed.tag allowed same
  have reading : ∀ {s : Site σ} {k i x past' w' place}, s.handle.node = owner → s.At size past w →
      s.Under k i x past' (w'.crop size) → World.place? t owner k i w' = .ok place →
        s.node.place? k i = place := by
    intro s k i x past' w' place same placed under reads
    have found := under.reads placed.fits
    rw [lanes same placed, same, reads] at found
    exact (Except.ok.inj found).symm
  refine ⟨?lost, ?skip, ?enter, ?stop, ?single⟩
  case lost =>
    rintro k i x past' w' e ⟨evolves, -⟩ lost
    exact absurd lost (allowed.later evolves).not_lost
  case skip =>
    rintro k i x past' w' ⟨evolves, calm, holds⟩ reads
    refine ⟨evolves, calm, fun fresh s same placed => ?_⟩
    have under := holds fresh s same placed
    exact under.skip (reading same placed under reads)
  case stop =>
    rintro k i x past' w' lane here ⟨evolves, calm, holds⟩ reads
    refine ⟨evolves, calm, fun fresh s same placed => ?_⟩
    have under := holds fresh s same placed
    exact under.next (lanes same placed ▸ here) (reading same placed under reads)
  case single =>
    rintro k x past' w' lane here one ⟨evolves, calm, holds⟩
    refine ⟨evolves, calm, fun fresh s same placed => ?_⟩
    have here : s.node.tag.lanes[k]? = some lane := lanes same placed ▸ here
    exact (holds fresh s same placed).next here (s.node.place?_succ_of_one here one 0)
  case enter =>
    rintro k i x past₁ w₁ lane id here ⟨evolves, calm, holds⟩ reads
    refine ⟨⟨large.trans evolves.size_le, trivial, nofun⟩, ?_, ?_⟩
    · rintro past' new w' ⟨onward, calm', done⟩
      have further := evolves.trans onward
      obtain ⟨n, stored, rfl⟩ := allowed.later further
      have landed : Unvisited size past' w' → ∀ s : Site σ, s.handle.node = owner → s.At size past w →
          if new = id then s.Under k (i + 1) x past' (w'.crop size)
          else ∃ w'', World.fill n.tag owner k i new (w'.crop size) = (.ok true, w'') ∧
            s.Under k (i + 1) (x + 1) past' w'' := by
        intro fresh s same placed
        have under := holds (fresh.earlier calm'.entered_subset onward) s same placed
        have next := under.lands placed (lanes same placed ▸ here) (reading same placed under reads)
          (done fresh)
        rwa [lanes same placed, same] at next
      refine landed_of_node stored (fun kept => ?_) (fun other old there => ?_) (fun other gone => ?_)
      · refine ⟨further, calm.trans calm', fun fresh s same placed => ?_⟩
        have next := landed fresh s same placed
        rwa [if_pos kept] at next
      · refine ⟨further.trans (.put stored rfl), calm.trans calm', fun fresh s same placed => ?_⟩
        have fresh : Unvisited size past' w' := fresh.earlier (List.Subset.refl _) (.put stored rfl)
        have next := landed fresh s same placed
        rw [if_neg other] at next
        obtain ⟨w'', filled, under⟩ := next
        rwa [(World.fill_crop stored filled).2] at under
      · -- The place is still there, so nothing is dropped.
        have impossible : Unvisited size past' w' → ∀ s : Site σ, s.handle.node = owner →
            ¬ s.At size past w := by
          intro fresh s same placed
          have next := landed fresh s same placed
          rw [if_neg other] at next
          obtain ⟨w'', filled, -⟩ := next
          obtain ⟨⟨old, there⟩, -⟩ := World.fill_crop stored filled
          rw [gone] at there
          cases there
        cases lane.arity with
        | one => exact ⟨further, calm.trans calm', fun fresh s same placed =>
            absurd placed (impossible fresh s same)⟩
        | many => exact ⟨further, calm.trans calm', fun fresh s same placed =>
            absurd placed (impossible (fresh.earlier (List.Subset.refl _) .refl) s same)⟩
    · rintro past' e w' ⟨onward, path, broken, cut⟩
      refine ⟨evolves.trans onward, path, .after_calm calm broken, ?_⟩
      intro fresh s known same placed start
      obtain ⟨below, rfl, cut⟩ := cut fresh
      have under := holds (fresh.earlier broken.entered_subset onward) s same placed
      exact under.breaks placed (lanes same placed ▸ here) (reading same placed under reads) start cut

/-- Nothing is answered for or entered when other calls begin before the interruption and end after
it. -/
theorem Interrupted.around {f : Forest} {w w' : World (Tally σ)} {known path seen later : List Handle}
    {past past' past₁ past₂ : List (Moment Reply)} {e : Fault} {given : Answers}
    (cut : Interrupted choose size f w known past₁ past' e w' path given seen later)
    (before : answers past₁ = answers past) (after : answers past₂ = answers past')
    (shown : ProgramTree.entered past₂ = ProgramTree.entered past') :
    Interrupted choose size f w known past past₂ e w' path given seen later :=
  { cut with
    progress := { cut.progress.since before with answers := after.trans (before ▸ cut.progress.answers) }
    entered := shown.trans cut.entered }

namespace Site

variable {s : Site σ} {f : Forest} {h : Handle} {past past' : List (Moment Reply)}
  {w w' : World (Tally σ)} {e : Fault} {known : List Handle}

theorem exists_at (fresh : Unvisited size past w) (mem : h ∈ entered past) (good : w.arena.Good h)
    (unfolds : Unfolds (w.crop size).arena ∅ [h] f) (distinct : f.ids.Nodup) :
    ∃ s : Site σ, s.handle = h ∧ s.tree = f ∧ s.At size past w := by
  obtain ⟨n, shown⟩ := good
  have shown := fresh.shows_crop mem shown
  cases unfolds with
  | stub bad _ => exact absurd shown (bad n)
  | cut _ tag _ => simp at tag
  | @node _ m _ kids _ good _ below rest =>
    cases rest
    let s : Site σ := ⟨idle, h, m, kids, w.crop size, past⟩
    exact ⟨s, rfl, rfl, rfl, rfl, rfl, rfl, good, below, s.ids_tree ▸ distinct, .inl (still σ)⟩

theorem At.later (placed : s.At size past w) (same : ProgramTree.answers past' = ProgramTree.answers past)
    (shown : ProgramTree.entered past' = ProgramTree.entered past) : s.At size past' w :=
  { placed with answers := placed.answers.trans same.symm, entered := placed.entered.trans shown.symm }

theorem At.under (placed : s.At size past w) : s.Under 0 0 0 past (w.crop size) := by
  have owner : s.start.arena.node s.handle.node = .ok (s.node.mapChildren (Answers.of [])) := by
    rw [Node.mapChildren_id fun c _ => Answers.of_not_mem List.not_mem_nil]
    exact placed.fits.good.1
  have under : s.Under 0 0 0 s.before s.start :=
    ⟨.nil, s.kids, [], placed.fits.walked_start, each_transforms _, owner⟩
  rw [← placed.start]
  exact under.later placed.answers.symm placed.entered.symm

theorem Under.interrupted (under : s.Under s.node.tag.lanes.length 0 0 past' (w'.crop size))
    (placed : s.At size past w) (start : entered past = known ++ [s.handle]) {kept : NodeId}
    (large : size ≤ w'.arena.size) (failed : (choose s.handle kept w').result = .error e) :
    ∃ given seen later, Interrupted choose size s.tree w known past past' e
      (w'.answered (choose s.handle kept w')) [s.handle] given seen later := by
  obtain ⟨given, walked, absent, owner⟩ := under.complete placed.fits
  have preorder : s.tree.preorder = s.handle :: s.kids.preorder := by simp [tree, Forest.preorder]
  refine ⟨given, s.handle :: s.kids.preorder, [], ?progress, ?entered, ?preorder, ?once, ?distinct, ?apart,
    List.isChain_singleton _, ⟨s.handle, rfl, .inr ⟨kept, w', failed, rfl⟩⟩⟩
  case progress =>
    have progress := walked.finish placed.fits owner (List.append_nil _).symm (by simp [Answers.keys])
    rw [List.append_nil] at progress
    rw [World.crop_answered large]
    exact (placed.progress progress).answered fun _ => rfl
  case entered => rw [walked.entered, placed.entered, start, List.append_assoc, List.singleton_append]
  case preorder => rw [preorder, List.append_nil]
  case once =>
    exact (walked.preorder_perm.cons s.handle).trans (List.perm_append_singleton ..).symm
  case distinct =>
    rw [walked.keys]
    exact Forest.nodup_postorder (List.nodup_cons.mp placed.fits.distinct).2
  case apart => simpa using absent

end Site

theorem Interrupted.of_bad {f : Forest} {w w' : World (Tally σ)} {known : List Handle} {h : Handle}
    {past : List (Moment Reply)} {e : Fault} (unfolds : Unfolds (w.crop size).arena ∅ [h] f)
    (blames : w.arena.Blames h e) (start : ProgramTree.entered past = known ++ [h])
    (arena : w'.arena = w.arena) (state : w'.state = w.state) :
    Interrupted choose size f w known past past e w' [h] [] [h] [] := by
  cases unfolds with
  | cut _ tag _ => simp at tag
  | node good _ _ _ =>
    exact absurd ⟨_, (Arena.shows_crop_iff.mp good).2⟩ blames.not_good
  | stub _ rest =>
    cases rest
    have raised : Raised choose h e w' := by
      rw [Raised, arena]
      exact .inl blames
    refine ⟨⟨(List.append_nil _).symm, by simp [Answers.keys], ?_, by simp [Forest.Mapped, Forest.nodes]⟩,
      start, rfl, .refl _, .nil, by simp [Answers.keys], List.isChain_singleton _, ⟨h, rfl, raised⟩⟩
    exact .of_same (congrArg (·.crop size) arena) state

section Followed

variable {h : Handle} {n : Node} {past : List (Moment Reply)} {w : World (Tally σ)}

theorem followed_enter (large : size ≤ w.arena.size) :
    (followed choose size).Serves (rounds (followed choose size)) (.enter h) past w
      (((answering choose).enter h).embed w) := by
  have entry : entered (past ++ [.began (.enter h)]) = entered past ++ [h] := entered_enter past h
  have inside : h ∈ entered (past ++ [.began (.enter h)]) := by simp [entry]
  have pre : (followed choose size).pre (.dispatch h) (past ++ [.began (.enter h)]) w :=
    ⟨large, trivial, fun c same => Call.dispatch.inj same ▸ inside⟩
  have embedded : ((answering choose).enter h).embed = _ := body_enter h
  rw [embedded]
  refine ((Next.Meets.perform pre).mono (fun _ _ _ good => good) ?_).bind ?_
  · rintro past' e w' ⟨evolves, path, broken, cut⟩
    refine ⟨evolves, h :: path, (Broken.after_calm (.began past _) broken).ended (.enter h), ?_⟩
    intro fresh
    refine ⟨path, rfl, fun f unfolds distinct => ?_⟩
    obtain ⟨given, seen, later, cut⟩ := cut fresh.of_ended f (entered past) unfolds distinct entry
    exact ⟨given, seen, later, cut.around (answers_began ..) (answers_error ..) (entered_ended ..)⟩
  · rintro past' kept w' ⟨evolves, calm, done⟩
    have large' := large.trans evolves.size_le
    have allocated := Arena.Evolves.allocAll w'.arena (choose h kept w').fresh
    have quiet := (Calm.began past (.enter h)).trans calm
    -- The tree is followed up to the time when the pass answers.
    have followed : Unvisited size past' (w'.answered (choose h kept w')) → ∀ f,
        Unfolds (w.crop size).arena ∅ [h] f → f.ids.Nodup →
          ∃ s : Site σ, s.handle = h ∧ s.tree = f ∧ s.At size (past ++ [.began (.enter h)]) w ∧
            s.Under s.node.tag.lanes.length 0 0 past' (w'.crop size) := by
      intro fresh f unfolds distinct
      have fresh : Unvisited size past' w' := fresh.earlier (List.Subset.refl _) allocated
      obtain ⟨good, done⟩ := done fresh
      obtain ⟨s, same, tree, placed⟩ :=
        Site.exists_at (fresh.earlier calm.entered_subset evolves) inside good unfolds distinct
      exact ⟨s, same, tree, placed, done s same placed⟩
    change Next.Meets _ _ _ _ _ (.finish (choose h kept w').result (w'.answered (choose h kept w')))
    cases result : (choose h kept w').result with
    | ok new =>
      refine .ok ⟨evolves.trans allocated, quiet.ended .., fun fresh f unfolds distinct => ?_⟩
      obtain ⟨s, rfl, rfl, placed, under⟩ := followed fresh.of_ended f unfolds distinct
      have succeeds := under.succeeds placed.fits (placed.answers.trans (answers_began ..))
        (placed.entered.trans entry) new
      rw [placed.quiet_eq, placed.start] at succeeds
      rw [World.crop_answered large']
      exact succeeds.answered fun _ => rfl
    | error e =>
      refine .error ⟨evolves.trans allocated, [h], (quiet.broken e).ended (.enter h), ?_⟩
      refine fun fresh => ⟨[], rfl, fun f unfolds distinct => ?_⟩
      obtain ⟨s, rfl, rfl, placed, under⟩ := followed fresh.of_ended f unfolds distinct
      obtain ⟨given, seen, later, cut⟩ := under.interrupted placed entry large' result
      exact ⟨given, seen, later, cut.around (answers_began ..) (answers_error ..) (entered_ended ..)⟩

theorem followed_method (pre : (followed choose size).pre (.dispatch h) past w) (shown : w.arena.Shows h n) :
    (followed choose size).Serves (rounds (followed choose size)) (.dispatch h) past w
      (((answering choose).method n.tag h.node).embed w) := by
  obtain ⟨large, -, inside⟩ := pre
  have inside := inside h rfl
  have walk : (followed choose size).pre (.walk n.tag h.node) (past ++ [.began (.dispatch h)]) w :=
    ⟨large, ⟨n, shown.1, rfl⟩, nofun⟩
  rw [body_method]
  refine ((Next.Meets.perform walk).mono (fun _ _ _ good => good) ?_).bind ?_
  · rintro past' e w' ⟨evolves, path, broken, cut⟩
    refine ⟨evolves, path, (Broken.after_calm (.began past _) broken).ended (.dispatch h), ?_⟩
    intro fresh f known unfolds distinct start
    have before := fresh.of_ended.earlier broken.entered_subset evolves
    rw [Unvisited, entered_dispatch] at before
    obtain ⟨s, rfl, rfl, placed⟩ := Site.exists_at before inside ⟨n, shown⟩ unfolds distinct
    have placed := placed.later (answers_began past (.dispatch s.handle)) (entered_dispatch past s.handle)
    obtain ⟨given, seen, later, cut⟩ :=
      cut fresh.of_ended s known rfl placed ((entered_dispatch ..).trans start)
    exact ⟨given, seen, later, cut.around (answers_began ..) (answers_error ..) (entered_ended ..)⟩
  · rintro past' _ w' ⟨evolves, calm, done⟩
    refine .ok ⟨evolves, ((Calm.began past _).trans calm).ended .., fun fresh => ⟨⟨n, shown⟩, ?_⟩⟩
    intro s same placed
    have placed := placed.later (answers_began past (.dispatch h)) (entered_dispatch past h)
    have under := done fresh.of_ended s (congrArg Handle.node same) placed
    exact under.later (answers_dispatched ..) (entered_ended ..)

theorem followed_keeps (choose : Handle → NodeId → World (Tally σ) → Answer σ) (size : Nat) :
    (answering choose).Keeps (followed choose size) where
  enter pre := followed_enter pre.1
  method pre shown := followed_method pre shown
  unknown {h past w e w'} pre blames stuck := by
    obtain ⟨arena, state⟩ := World.classify_frame h w
    rw [stuck] at arena state
    refine ⟨arena ▸ .refl, [], ((Calm.began past _).broken e).ended (.dispatch h), ?_⟩
    intro _ f known unfolds _ start
    have cut : Interrupted choose size f w known past past e w' [h] [] [h] [] :=
      .of_bad unfolds blames start arena state
    refine ⟨[], [h], [], cut.around rfl ?_ ?_⟩
    · rw [answers_error, answers_began]
    · rw [entered_ended, entered_dispatch]
  walk {t owner past w} pre := by
    refine ⟨_, _, followed_roams past pre.1 pre.2.1, ?_, ?_, ?_⟩
    · refine ⟨.refl, .began past _, fun _ s same placed => ?_⟩
      exact placed.under.later (answers_began ..) (entered_walk ..)
    · rintro past' w' ⟨evolves, calm, holds⟩
      refine ⟨evolves, calm.ended .., fun fresh s same placed => ?_⟩
      have under := holds fresh.of_ended s same placed
      rw [← placed.tag pre.2.1 same] at under
      exact under.later (answers_walked ..) (entered_ended ..)
    · rintro past' e w' ⟨evolves, path, broken, cut⟩
      refine ⟨evolves, path, broken.ended (.walk t owner), ?_⟩
      intro fresh s known same placed start
      obtain ⟨given, seen, later, cut⟩ := cut fresh.of_ended s known same placed start
      exact ⟨given, seen, later, cut.around rfl (answers_error ..) (entered_ended ..)⟩

end Followed

/-- A pass that answers has failed, and has entered none of the nodes that it allocated. Then a path
leads from the root to the handle `h` where the fault was raised; its entry points were open at that
time, and all that happened afterwards is that they ended with this fault. The pass has entered the tree
in preorder up to `h`. A handle that was entered and is not on the path has been answered for, and its
slot holds the answer. The slots of the path and of what comes behind `h` are as they were. -/
theorem answering_interrupted (choose : Handle → NodeId → World (Tally σ) → Answer σ) (root : NodeId)
    (steps : Nat) (w w' : World (Tally σ)) (e : Fault) (single : SingleOwner w.arena ⟨.module, root⟩)
    (failed : (answering choose).transform steps root w = some (.error e, w'))
    (unvisited : ∀ c ∈ entered ((answering choose).account steps root w),
      c.node.index < w.arena.size ∨ w'.arena.size ≤ c.node.index) :
    let past := (answering choose).account steps root w
    let given := answers past
    ∃ (tree : Forest) (path : List Handle) (h : Handle) (later : List Handle),
      Unfolds w.arena ∅ [⟨.module, root⟩] tree ∧
      Broken [] past e path ∧ Raised choose h e w' ∧
      path.head? = some ⟨.module, root⟩ ∧ path.getLast? = some h ∧
      path.IsChain (fun c d => ∃ n, w.arena.Shows c n ∧ d ∈ n.children) ∧
      tree.preorder = entered past ++ later ∧ (entered past).Perm (given.keys ++ path) ∧
      (∀ p ∈ given, given.of p.1 = p.2) ∧ (∀ c ∈ path ++ later, given.of c = c.node) ∧
      (∀ c n, Reaches w.arena ⟨.module, root⟩ c → w.arena.Shows c n →
        w'.arena.node c.node = .ok (n.mapChildren given.of)) ∧
      (∀ id n, (∀ c, Reaches w.arena ⟨.module, root⟩ c → w.arena.Good c → c.node ≠ id) →
        w.arena.node id = .ok n → w'.arena.node id = .ok n) := by
  intro past given
  obtain ⟨tree, unfolds⟩ := single.exists_unfolds ∅
  have distinct := single.nodup_ids unfolds
  obtain ⟨_, last, run, ⟨e', rfl, ended, rfl⟩ | ⟨newRoot, rfl, ended, rfl⟩⟩ := transform_cases failed
  case inr => cases ended
  cases ended
  have pre : (followed choose w.arena.size).pre (.enter ⟨.module, root⟩) []
      (w.note (.started .transform root)) := ⟨Nat.le_refl _, trivial, nofun⟩
  obtain ⟨-, path, broken, cut⟩ := (followed_keeps choose w.arena.size).run pre run
  have fresh : Unvisited w.arena.size past w' := by
    intro c mem beyond
    have apart := unvisited c mem
    omega
  obtain ⟨below, rfl, cut⟩ := cut fresh
  -- At the start nothing is cropped.
  have whole : (World.crop (w.note (.started .transform root)) w.arena.size).arena = w.arena :=
    Arena.crop_self _
  obtain ⟨given', seen, later, cut⟩ := cut tree (whole.symm ▸ unfolds) distinct
  obtain rfl : given = given' := cut.progress.answers
  obtain rfl : entered past = seen := cut.entered
  obtain ⟨h, end_, raised⟩ := cut.raised
  refine ⟨tree, _, h, later, unfolds, broken, raised, rfl, end_, ?chain, cut.preorder, cut.once, ?answered,
    ?kept, ?slots, ?frame⟩
  case chain =>
    refine cut.chain.imp ?_
    rintro c d ⟨n, mem, child⟩
    exact ⟨n, unfolds.shows_of_mem _ mem, child⟩
  case answered => exact fun p mem => Answers.of_mem cut.distinct mem
  case kept => exact fun c mem => Answers.of_not_mem (cut.apart c mem)
  case slots =>
    intro c n reaches shown
    have mem := unfolds.mem_nodes (unfolds.mem_preorder_of_reaches reaches) shown
    exact (Arena.node_crop_iff.mp (cut.progress.mapped _ mem)).2
  case frame =>
    intro id n unreached stored
    have outside : id ∉ tree.ids := by
      intro mem
      obtain ⟨p, there, rfl⟩ := List.mem_map.mp mem
      exact unreached p.1 (unfolds.reaches_of_mem_nodes p there) ⟨p.2, unfolds.shows_of_mem p there⟩ rfl
    exact (Arena.node_crop_iff.mp (cut.progress.touched.frame outside (whole.symm ▸ stored))).2

def partNode (name : String) (parts : List NodeId) : Node :=
  ⟨.nameSpace, (name, parts, [], [], [], [], ()), .dummy⟩

/-- The pass that puts node 3 in the place of node 2, a dangling handle in the place of node 3, and a
new node, whose only part is node 1, in the place of node 1. -/
def wrapping (h : Handle) (kept : NodeId) (w : World (Tally Unit)) : Answer Unit :=
  if h.node = ⟨1⟩ then ⟨[partNode "new" [⟨1⟩]], .ok ⟨w.arena.size⟩, ()⟩
  else ⟨[], .ok (if h.node = ⟨2⟩ then ⟨3⟩ else if h.node = ⟨3⟩ then ⟨50⟩ else kept), ()⟩

def innerSample : World (Tally Unit) where
  arena := .ofList
    [partNode "all" [⟨1⟩, ⟨4⟩, ⟨5⟩], partNode "part" [⟨2⟩, ⟨3⟩], partNode "first" [],
      partNode "second" [], partNode "inner" [⟨99⟩], partNode "last" []]
  log := #[]
  state := ⟨0, ()⟩

def innerSampleAfter : World (Tally Unit) where
  arena := .ofList
    [partNode "all" [⟨6⟩, ⟨4⟩, ⟨5⟩], partNode "part" [⟨3⟩, ⟨50⟩], partNode "first" [],
      partNode "second" [], partNode "inner" [⟨99⟩], partNode "last" [], partNode "new" [⟨1⟩]]
  log := #[.started .transform ⟨0⟩]
  state := ⟨2, ()⟩

theorem innerSample_fails : (answering wrapping).transform 80 ⟨0⟩ innerSample =
    some (.error (.danglingHandle ⟨99⟩ 7), innerSampleAfter) := by
  cbv

theorem entered_innerSample : entered ((answering wrapping).account 80 ⟨0⟩ innerSample) =
    [⟨.module, ⟨0⟩⟩, ⟨.module, ⟨1⟩⟩, ⟨.module, ⟨2⟩⟩, ⟨.module, ⟨3⟩⟩, ⟨.module, ⟨4⟩⟩,
      ⟨.module, ⟨99⟩⟩] := by
  decide +kernel

theorem answering_interrupted_innerSample :
    let past := (answering wrapping).account 80 ⟨0⟩ innerSample
    ∃ path h later, Broken [] past (.danglingHandle ⟨99⟩ 7) path ∧
      Raised wrapping h (.danglingHandle ⟨99⟩ 7) innerSampleAfter ∧
      path.head? = some ⟨.module, ⟨0⟩⟩ ∧ path.getLast? = some h ∧
      entered past = [⟨.module, ⟨0⟩⟩, ⟨.module, ⟨1⟩⟩, ⟨.module, ⟨2⟩⟩, ⟨.module, ⟨3⟩⟩, ⟨.module, ⟨4⟩⟩,
        ⟨.module, ⟨99⟩⟩] ∧
      (∀ c ∈ path ++ later, (answers past).of c = c.node) ∧
      innerSampleAfter.arena.node ⟨0⟩ =
        .ok ((partNode "all" [⟨1⟩, ⟨4⟩, ⟨5⟩]).mapChildren (answers past).of) := by
  have unfolds : Unfolds innerSample.arena ∅ [⟨.module, ⟨0⟩⟩] _ :=
    .node ⟨rfl, rfl⟩ (by decide)
      (.node ⟨rfl, rfl⟩ (by decide)
        (.node ⟨rfl, rfl⟩ (by decide) .nil (.node ⟨rfl, rfl⟩ (by decide) .nil .nil))
        (.node ⟨rfl, rfl⟩ (by decide) (.stub (fun _ shows => by cases shows.1) .nil)
          (.node ⟨rfl, rfl⟩ (by decide) .nil .nil))) .nil
  have single : SingleOwner innerSample.arena ⟨.module, ⟨0⟩⟩ := .of_slots unfolds (by decide)
  obtain ⟨-, path, h, later, -, broken, raised, head, last, -, -, -, -, kept, slots, -⟩ :=
    answering_interrupted wrapping ⟨0⟩ 80 innerSample innerSampleAfter _ single innerSample_fails
      (by rw [entered_innerSample]; decide)
  exact ⟨path, h, later, broken, raised, head, last, entered_innerSample, kept,
    slots ⟨.module, ⟨0⟩⟩ _ .root ⟨rfl, rfl⟩⟩

/-- A namespace with two parts, of which the second one does not exist yet. -/
def wakingSample : World (Tally Unit) where
  arena := .ofList
    [partNode "all" [⟨1⟩, ⟨4⟩], partNode "part" [⟨2⟩, ⟨3⟩], partNode "first" [], partNode "second" []]
  log := #[]
  state := ⟨0, ()⟩

/-- The sample after the pass. The new node is the second part, so that node 1 was entered again. -/
def wakingSampleAfter : World (Tally Unit) where
  arena := .ofList
    [partNode "all" [⟨4⟩, ⟨4⟩], partNode "part" [⟨50⟩, ⟨50⟩], partNode "first" [],
      partNode "second" [], partNode "new" [⟨1⟩]]
  log := #[.started .transform ⟨0⟩]
  state := ⟨2, ()⟩

theorem wakingSample_fails : (answering wrapping).transform 100 ⟨0⟩ wakingSample =
    some (.error (.danglingHandle ⟨50⟩ 5), wakingSampleAfter) := by
  cbv

theorem wakingSample_single : SingleOwner wakingSample.arena ⟨.module, ⟨0⟩⟩ := by
  have unfolds : Unfolds wakingSample.arena ∅ [⟨.module, ⟨0⟩⟩] _ :=
    .node ⟨rfl, rfl⟩ (by decide)
      (.node ⟨rfl, rfl⟩ (by decide)
        (.node ⟨rfl, rfl⟩ (by decide) .nil (.node ⟨rfl, rfl⟩ (by decide) .nil .nil))
        (.stub (fun _ shows => by cases shows.1) .nil)) .nil
  exact .of_slots unfolds (by decide)

/-- A pass may enter a node that it has allocated. Here the answer for node 2 was node 3, and the pass
fails at node 50. The slot that held node 2 does not hold node 3 afterwards, and the slot of node 50 is
not as it was. -/
theorem wakingSample_overwritten :
    let past := (answering wrapping).account 100 ⟨0⟩ wakingSample
    SingleOwner wakingSample.arena ⟨.module, ⟨0⟩⟩ ∧
      (answering wrapping).transform 100 ⟨0⟩ wakingSample =
        some (.error (.danglingHandle ⟨50⟩ 5), wakingSampleAfter) ∧
      (entered past).getLast? = some ⟨.module, ⟨50⟩⟩ ∧
      (⟨.module, ⟨2⟩⟩, ⟨3⟩) ∈ answers past ∧
      wakingSample.arena.node ⟨1⟩ = .ok (partNode "part" [⟨2⟩, ⟨3⟩]) ∧
      wakingSampleAfter.arena.node ⟨1⟩ = .ok (partNode "part" [⟨50⟩, ⟨50⟩]) :=
  ⟨wakingSample_single, wakingSample_fails, by decide +kernel, by decide +kernel, rfl, rfl⟩

end Transformer

end ProgramTree
