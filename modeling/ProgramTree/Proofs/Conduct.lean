import ProgramTree.Proofs.Contract

/-!
Passes with arbitrary handlers. All that handlers may do to the arena is to allocate nodes and to edit
records, and under these an arena only evolves (`Arena.Evolves`): it never shrinks, and no node changes
its variant. `Next.Behaves` says of a piece of code what it keeps to, in terms of what its calls reply,
with `Manners` for what is common to all handlers of a pass. When the handlers behave, so does the
whole pass (`Visitor.Behaves.run`, `Transformer.Behaves.run`).
-/

namespace ProgramTree

namespace Arena

/-- What allocating nodes and editing records can make of the arena `a`. -/
inductive Evolves (a : Arena) : Arena → Prop where
  | refl : Evolves a a
  | alloc {b : Arena} (n : Node) : Evolves a b → Evolves a (b.alloc n).2
  | edit {b c : Arena} {t : Tag} {id : NodeId} {f : Record t.fields → Record t.fields} :
      Evolves a b → b.edit t id f = .ok c → Evolves a c

variable {a b c : Arena} {t : Tag} {id : NodeId} {n : Node} {h : Handle}

theorem node_of_get {record : Record t.fields} (got : a.get t id = .ok record) :
    ∃ n, a.node id = .ok n ∧ n.tag = t := by
  rw [get] at got
  cases found : a.node id with
  | error e => simp [found, bind, Except.bind] at got
  | ok n =>
    by_cases same : n.tag = t
    · exact ⟨n, rfl, same⟩
    · simp [found, bind, Except.bind, Node.as?, same] at got

theorem edit_cases {f : Record t.fields → Record t.fields} (edited : a.edit t id f = .ok b) :
    ∃ n record, a.node id = .ok n ∧ n.tag = t ∧ b = a.put t id record := by
  rw [edit] at edited
  cases got : a.get t id with
  | error e => simp [got, bind, Except.bind] at edited
  | ok record =>
    obtain ⟨n, stored, tag⟩ := node_of_get got
    refine ⟨n, f record, stored, tag, ?_⟩
    simpa [got, bind, Except.bind, pure, Except.pure] using edited.symm

theorem edit_of_node (stored : a.node id = .ok n) (f : Record n.tag.fields → Record n.tag.fields) :
    a.edit n.tag id f = .ok (a.put n.tag id (f n.record)) := by
  rw [Arena.edit, get_of_node stored]
  rfl

namespace Evolves

theorem trans (first : a.Evolves b) (second : b.Evolves c) : a.Evolves c := by
  induction second with
  | refl => exact first
  | alloc n _ ih => exact .alloc n ih
  | edit _ edited ih => exact .edit ih edited

theorem node (evolves : a.Evolves b) (stored : a.node id = .ok n) :
    ∃ m, b.node id = .ok m ∧ m.tag = n.tag := by
  induction evolves with
  | refl => exact ⟨n, stored, rfl⟩
  | alloc new _ ih =>
    obtain ⟨m, found, tag⟩ := ih
    exact ⟨m, node_alloc_of_ok new found, tag⟩
  | @edit b c t id' _ _ edited ih =>
    obtain ⟨m, found, tag⟩ := ih
    obtain ⟨m', record, found', tag', rfl⟩ := edit_cases edited
    by_cases same : id' = id
    · subst same
      cases found.symm.trans found'
      exact ⟨_, node_put_self found, tag'.symm.trans tag⟩
    · exact ⟨m, by rwa [node_put_ne same], tag⟩

theorem good (evolves : a.Evolves b) (shown : a.Good h) : b.Good h := by
  obtain ⟨n, stored, category⟩ := shown
  obtain ⟨m, found, tag⟩ := evolves.node stored
  exact ⟨m, found, (congrArg Tag.category tag).trans category⟩

theorem put {record : Record t.fields} (stored : a.node id = .ok n) (tag : n.tag = t) :
    a.Evolves (a.put t id record) := by
  subst tag
  have edited : a.edit n.tag id (fun _ => record) = .ok (a.put n.tag id record) := by
    rw [Arena.edit, get_of_node stored]
    rfl
  exact .edit .refl edited

end Evolves

end Arena

/-- A call that is possible: a node is walked as the variant that it is. -/
def Call.Allowed : Call → Arena → Prop
  | .enter _, _ | .dispatch _, _ => True
  | .walk t owner, a => ∃ n, a.node owner = .ok n ∧ n.tag = t

theorem Call.Allowed.later {c : Call} {a b : Arena} (allowed : c.Allowed a) (evolves : a.Evolves b) :
    c.Allowed b := by
  cases c with
  | enter _ => exact trivial
  | dispatch _ => exact trivial
  | walk t owner =>
    obtain ⟨n, stored, rfl⟩ := allowed
    exact evolves.node stored

theorem Call.Allowed.not_lost {t : Tag} {owner : NodeId} {a : Arena} {e : Fault}
    (allowed : (Call.walk t owner).Allowed a) : a.get t owner ≠ .error e := by
  obtain ⟨n, stored, rfl⟩ := allowed
  rw [Arena.get_of_node stored]
  exact nofun

/-- How the handlers of a pass are to behave, and what they can rely on. -/
structure Manners (s : Type) (ρ : Call → Type) where
  inv : Arena → s → Prop
  fit : (c : Call) → ρ c → Arena → Prop
  /-- The call, made in this arena, may fail. -/
  mayFail : Call → Arena → Prop

/-- From the arena `a` on, the code changes the arena only by allocating and editing, makes calls that are
allowed, and ends with a result that is a `goal`, or if it `mayFail` with any fault. -/
inductive Next.Behaves {s α : Type} {ρ : Call → Type} (m : Manners s ρ) (goal : α → Arena → Prop)
    (mayFail : Prop) : (a : Arena) → Next (World s) ρ α → Prop where
  | ok {a : Arena} {x : α} {w : World s} :
      a.Evolves w.arena → m.inv w.arena w.state → goal x w.arena →
      Behaves m goal mayFail a (.finish (.ok x) w)
  | error {a : Arena} {e : Fault} {w : World s} :
      a.Evolves w.arena → m.inv w.arena w.state → mayFail →
      Behaves m goal mayFail a (.finish (.error e) w)
  | call {a : Arena} {c : Call} {w : World s}
      {resume : Except Fault (ρ c) → World s → Next (World s) ρ α} :
      a.Evolves w.arena → m.inv w.arena w.state → c.Allowed w.arena →
      (∀ x w', w.arena.Evolves w'.arena → m.inv w'.arena w'.state → m.fit c x w'.arena →
        Behaves m goal mayFail w'.arena (resume (.ok x) w')) →
      (∀ e w', w.arena.Evolves w'.arena → m.inv w'.arena w'.state → m.mayFail c w.arena →
        Behaves m goal mayFail w'.arena (resume (.error e) w')) →
      Behaves m goal mayFail a (.call c w resume)

def Manners.Serve {s : Type} {ρ : Call → Type} (m : Manners s ρ) (c : Call) (w : World s)
    (next : Next (World s) ρ (ρ c)) : Prop :=
  next.Behaves m (m.fit c) (m.mayFail c w.arena) w.arena

/-- The terms of calls that tell of no other faults than `told`. -/
def Manners.terms {s : Type} {ρ : Call → Type} (m : Manners s ρ) (told : Fault → Prop) :
    Terms (World s) (Moment ρ) ρ where
  pre c _ w := m.inv w.arena w.state ∧ c.Allowed w.arena
  good c _ w _ x w' := w.arena.Evolves w'.arena ∧ m.inv w'.arena w'.state ∧ m.fit c x w'.arena
  bad c _ w _ e w' := w.arena.Evolves w'.arena ∧ m.inv w'.arena w'.state ∧ m.mayFail c w.arena ∧ told e

section Meets

variable {s α ι : Type} {ρ : Call → Type} {τ : ι → Type} {m : Manners s ρ}
  {loops : Terms (World s) (Moment ρ) τ} {goal : α → Arena → Prop} {mayFail : Prop}

theorem Next.Meets.since_evolves {a b : Arena} (evolves : a.Evolves b) {calls : Terms (World s) (Moment ρ) ρ}
    {good : α → World s → Prop} {bad : World s → Prop} {past : List (Moment ρ)}
    {next : Next (World s) (TaskReply ρ τ) α}
    (meets : Next.Meets calls loops (fun _ x w => b.Evolves w.arena ∧ good x w)
      (fun _ _ w => b.Evolves w.arena ∧ bad w) past next) :
    Next.Meets calls loops (fun _ x w => a.Evolves w.arena ∧ good x w)
      (fun _ _ w => a.Evolves w.arena ∧ bad w) past next :=
  meets.mono (fun _ _ _ holds => ⟨evolves.trans holds.1, holds.2⟩)
    (fun _ _ _ holds => ⟨evolves.trans holds.1, holds.2⟩)

theorem Next.Behaves.meets {a : Arena} {next : Next (World s) ρ α}
    (behaves : next.Behaves m goal mayFail a) : ∀ {past : List (Moment ρ)},
      Next.Meets (m.terms fun _ => True) loops
        (fun _ x w => a.Evolves w.arena ∧ m.inv w.arena w.state ∧ goal x w.arena)
        (fun _ _ w => a.Evolves w.arena ∧ m.inv w.arena w.state ∧ mayFail) past next.embed := by
  induction behaves with
  | ok evolves inv done => exact .ok ⟨evolves, inv, done⟩
  | error evolves inv allowed => exact .error ⟨evolves, inv, allowed⟩
  | @call a c w resume evolves inv allowed _ _ ihGood ihBad =>
    refine .call ⟨inv, allowed⟩ ?_ ?_
    · rintro inner x w' ⟨onward, inv', fit⟩
      exact (ihGood x w' onward inv' fit).since_evolves (evolves.trans onward)
    · rintro inner e w' ⟨onward, inv', fails, -⟩
      exact (ihBad e w' onward inv' fails).since_evolves (evolves.trans onward)

theorem Manners.Serve.serves {c : Call} {w : World s} {next : Next (World s) ρ (ρ c)}
    (serve : m.Serve c w next) (past : List (Moment ρ)) :
    (m.terms fun _ => True).Serves loops c past w next.embed := by
  refine (Next.Behaves.meets serve).mono (fun _ _ _ holds => holds) ?_
  rintro _ _ _ ⟨evolves, inv, fails⟩
  exact ⟨evolves, inv, fails, trivial⟩

end Meets

/-- What the engines do on their own goes with the manners. -/
structure Manners.Suits {s : Type} {ρ : Call → Type} (m : Manners s ρ) : Prop where
  walked : ∀ {t owner} (x : ρ (.walk t owner)) (a : Arena), m.fit (.walk t owner) x a
  unknown : ∀ {a s h e}, m.inv a s → a.Blames h e → m.mayFail (.dispatch h) a
  /-- If a child may fail, so may the walk. -/
  child : ∀ {a s n owner c b}, m.inv a s → a.node owner = .ok n → c ∈ n.children → a.Evolves b →
    m.mayFail (.enter c) b → ∀ a', m.mayFail (.walk n.tag owner) a'

theorem Manners.Suits.unclassified {s : Type} {ρ : Call → Type} {m : Manners s ρ} (suits : m.Suits)
    {past : List (Moment ρ)} {h : Handle} {w w' : World s} {e : Fault}
    (pre : (m.terms fun _ => True).pre (.dispatch h) past w) (blames : w.arena.Blames h e)
    (stuck : World.classify h w = (.error e, w')) :
    (m.terms fun _ => True).bad (.dispatch h) past w
      (past ++ [.began (.dispatch h)] ++ [.ended (.dispatch h) (.error e)]) e w' := by
  have arena : w'.arena = w.arena := by simpa [stuck] using (World.classify_frame h w).1
  have state : w'.state = w.state := by simpa [stuck] using (World.classify_frame h w).2
  refine ⟨?_, ?_, suits.unknown pre.1 blames, trivial⟩
  · rw [arena]
    exact .refl
  · rw [arena, state]
    exact pre.1

theorem Node.mem_children {n : Node} {k i : Nat} {lane : Lane} {id : NodeId}
    (here : n.tag.lanes[k]? = some lane) (there : n.place? k i = some (some id)) :
    ⟨lane.category, id⟩ ∈ n.children := by
  rw [n.children_eq k i]
  exact List.mem_append_right _ (n.mem_onward here there)

namespace Visitor

variable {σ : Type} {v : Visitor σ} {m : Manners σ Reply} {t : Tag} {owner : NodeId} {k : Nat}
  {lane : Lane} {cursor : Cursor} {w w' : World σ}

structure Behaves (v : Visitor σ) (m : Manners σ Reply) : Prop where
  enter : ∀ h w, m.inv w.arena w.state → m.Serve (.enter h) w (v.enter h w)
  method : ∀ h n w, m.inv w.arena w.state → w.arena.Shows h n →
    m.Serve (.dispatch h) w (v.method n.tag h.node w)

/-- The children of `owner` that are left were read before, when all was well. -/
def Cursor.Sound (m : Manners σ Reply) (t : Tag) (owner : NodeId) (k : Nat) (a : Arena) : Cursor → Prop
  | live _ => True
  | copy left => ∃ a' s n, m.inv a' s ∧ a'.node owner = .ok n ∧ n.tag = t ∧ a'.Evolves a ∧
      ∀ lane id, t.lanes[k]? = some lane → some id ∈ left → ⟨lane.category, id⟩ ∈ n.children

theorem Cursor.Sound.next {a b : Arena} (sound : cursor.Sound m t owner k a) (evolves : a.Evolves b) :
    cursor.next.Sound m t owner k b := by
  cases cursor with
  | live i => exact trivial
  | copy left =>
    obtain ⟨a', s, n, inv, stored, tag, before, mem⟩ := sound
    exact ⟨a', s, n, inv, stored, tag, before.trans evolves,
      fun lane id here there => mem lane id here (List.mem_of_mem_tail there)⟩

theorem Cursor.Sound.child {id : NodeId} (sound : cursor.Sound m t owner k w.arena)
    (inv : m.inv w.arena w.state) (here : t.lanes[k]? = some lane)
    (stored : ∃ n, w.arena.node owner = .ok n ∧ n.tag = t)
    (reads : cursor.place? t owner k w = .ok (some (some id))) :
    ∃ a s n, m.inv a s ∧ a.node owner = .ok n ∧ n.tag = t ∧ a.Evolves w.arena ∧
      ⟨lane.category, id⟩ ∈ n.children := by
  cases cursor with
  | live i =>
    obtain ⟨n, stored, rfl⟩ := stored
    rw [Cursor.place?, World.place?_of_node stored] at reads
    exact ⟨_, _, n, inv, stored, rfl, .refl, Node.mem_children here (Except.ok.inj reads)⟩
  | copy left =>
    obtain ⟨a, s, n, inv, stored, tag, before, mem⟩ := sound
    have first : left.head? = some (some id) := Except.ok.inj reads
    exact ⟨a, s, n, inv, stored, tag, before, mem lane id here (List.mem_of_head? first)⟩

/-- The owner of the places is there all the time, so a walk fails only as its children do. -/
theorem Behaves.roams (suits : m.Suits) (policy : σ → Policy) (told : Fault → Prop)
    (allowed : (Call.walk t owner).Allowed w.arena) :
    Roams policy (m.terms told) t owner
      (fun k cursor _ w' => w.arena.Evolves w'.arena ∧ m.inv w'.arena w'.state ∧
        cursor.Sound m t owner k w'.arena)
      (fun _ e w' => w.arena.Evolves w'.arena ∧ m.inv w'.arena w'.state ∧
        m.mayFail (.walk t owner) w.arena ∧ told e) := by
  refine ⟨?lost, ?copy, ?skip, ?enter, ?stop, ?single⟩
  case lost =>
    rintro k cursor past w' e ⟨evolves, -⟩ lost
    exact absurd lost (allowed.later evolves).not_lost
  case copy =>
    rintro k past w' left - ⟨evolves, inv, -⟩ reads
    obtain ⟨n, stored, rfl⟩ := allowed.later evolves
    rw [World.places_of_node stored] at reads
    cases reads
    refine ⟨evolves, inv, w'.arena, w'.state, n, inv, stored, rfl, .refl, fun lane id here there => ?_⟩
    obtain ⟨i, there⟩ := List.getElem?_of_mem there
    rw [n.getElem?_places] at there
    exact Node.mem_children here there
  case skip =>
    rintro k cursor past w' ⟨evolves, inv, sound⟩ -
    exact ⟨evolves, inv, sound.next .refl⟩
  case enter =>
    rintro k cursor past w' lane id here ⟨evolves, inv, sound⟩ reads
    refine ⟨⟨inv, trivial⟩, ?_, ?_⟩
    · rintro past' w'' ⟨onward, inv', -⟩
      exact ⟨evolves.trans onward, inv', sound.next onward⟩
    · rintro past' e w'' ⟨onward, inv', fails, tells⟩
      obtain ⟨a, s, n, inv₀, stored, rfl, before, mem⟩ := sound.child inv here (allowed.later evolves) reads
      exact ⟨evolves.trans onward, inv', suits.child inv₀ stored mem before fails _, tells⟩
  case stop =>
    rintro k cursor past w' lane - ⟨evolves, inv, -⟩ -
    exact ⟨evolves, inv, trivial⟩
  case single =>
    rintro k past w' lane - - ⟨evolves, inv, -⟩
    exact ⟨evolves, inv, trivial⟩

namespace Behaves

theorem keeps (behaves : v.Behaves m) (suits : m.Suits) : v.Keeps (m.terms fun _ => True) where
  enter {h past w} pre := (behaves.enter h w pre.1).serves past
  method {h past w n} pre shown := (behaves.method h n w pre.1 shown).serves past
  unknown pre blames stuck := suits.unclassified pre blames stuck
  walk {t owner past w} pre := by
    refine ⟨_, _, roams suits v.policy _ pre.2, ⟨.refl, pre.1, trivial⟩, ?_, ?_⟩
    · rintro past' w' ⟨evolves, inv, -⟩
      exact ⟨evolves, inv, suits.walked () _⟩
    · exact fun _ _ _ holds => holds

/-- A pass whose handlers behave ends as its handlers do. -/
theorem run (behaves : v.Behaves m) (suits : m.Suits) {steps : Nat} {c : Call} {r : Except Fault Unit}
    (inv : m.inv w.arena w.state) (allowed : c.Allowed w.arena)
    (done : v.run steps c w = some (r, w')) :
    Outcome
      (fun x => w.arena.Evolves w'.arena ∧ m.inv w'.arena w'.state ∧ m.fit c x w'.arena)
      (fun _ => w.arena.Evolves w'.arena ∧ m.inv w'.arena w'.state ∧ m.mayFail c w.arena) r := by
  have ended := (behaves.keeps suits).run ⟨inv, allowed⟩ done
  cases r with
  | ok x => exact ended
  | error e => exact ⟨ended.1, ended.2.1, ended.2.2.1⟩

end Behaves

end Visitor

namespace Transformer

variable {σ : Type} {r : Transformer σ} {m : Manners (Tally σ) Reply} {t : Tag} {owner : NodeId}
  {w w' : World (Tally σ)}

structure Behaves (r : Transformer σ) (m : Manners (Tally σ) Reply) : Prop where
  enter : ∀ h w, m.inv w.arena w.state → m.Serve (.enter h) w (r.enter h w)
  method : ∀ h n w, m.inv w.arena w.state → w.arena.Shows h n →
    m.Serve (.dispatch h) w (r.method n.tag h.node w)

structure Suits (m : Manners (Tally σ) Reply) : Prop extends m.Suits where
  bump : ∀ {w : World (Tally σ)} {x}, m.inv w.arena w.state → m.inv w.arena (w.bump x).state
  store : ∀ {a s n owner k i lane id new old}, m.inv a s → a.node owner = .ok n →
    n.tag.lanes[k]? = some lane → n.place? k i = some old →
    m.fit (.enter ⟨lane.category, id⟩) new a → m.inv (a.put n.tag owner (n.fill k i new).record) s

theorem Behaves.roams (suits : Suits m) (told : Fault → Prop)
    (allowed : (Call.walk t owner).Allowed w.arena) :
    Roams (m.terms told) t owner
      (fun _ _ _ _ w' => w.arena.Evolves w'.arena ∧ m.inv w'.arena w'.state)
      (fun _ e w' => w.arena.Evolves w'.arena ∧ m.inv w'.arena w'.state ∧
        m.mayFail (.walk t owner) w.arena ∧ told e) := by
  refine ⟨?lost, ?skip, ?enter, ?stop, ?single⟩
  case lost =>
    rintro k i x past w' e ⟨evolves, -⟩ lost
    exact absurd lost (allowed.later evolves).not_lost
  case skip => exact fun holds _ => holds
  case enter =>
    rintro k i x past w' lane id here ⟨evolves, inv⟩ reads
    refine ⟨⟨inv, trivial⟩, ?_, ?_⟩
    · rintro past' new w'' ⟨onward, inv', fit⟩
      have further := evolves.trans onward
      obtain ⟨n, stored, rfl⟩ := allowed.later further
      refine landed_of_node stored (fun _ => ⟨further, inv'⟩) ?_ ?_
      · intro _ old there
        exact ⟨further.trans (.put stored rfl), suits.store inv' stored here there fit⟩
      · intro _ _
        cases lane.arity <;> exact ⟨further, inv'⟩
    · rintro past' e w'' ⟨onward, inv', fails, tells⟩
      obtain ⟨n, stored, rfl⟩ := allowed.later evolves
      rw [World.place?_of_node stored] at reads
      have mem := Node.mem_children here (Except.ok.inj reads)
      exact ⟨evolves.trans onward, inv', suits.child inv stored mem .refl fails _, tells⟩
  case stop =>
    rintro k i x past w' lane - ⟨evolves, inv⟩ -
    exact ⟨evolves, suits.bump inv⟩
  case single =>
    rintro k x past w' lane - - ⟨evolves, inv⟩
    exact ⟨evolves, suits.bump inv⟩

namespace Behaves

theorem keeps (behaves : r.Behaves m) (suits : Suits m) : r.Keeps (m.terms fun _ => True) where
  enter {h past w} pre := (behaves.enter h w pre.1).serves past
  method {h past w n} pre shown := (behaves.method h n w pre.1 shown).serves past
  unknown pre blames stuck := suits.toSuits.unclassified pre blames stuck
  walk {t owner past w} pre := by
    refine ⟨_, _, roams suits _ pre.2, ⟨.refl, pre.1⟩, ?_, ?_⟩
    · rintro past' w' ⟨evolves, inv⟩
      exact ⟨evolves, inv, suits.walked () _⟩
    · exact fun _ _ _ holds => holds

theorem run (behaves : r.Behaves m) (suits : Suits m) {steps : Nat} {c : Call}
    {result : Except Fault (Reply c)} (inv : m.inv w.arena w.state) (allowed : c.Allowed w.arena)
    (done : r.run steps c w = some (result, w')) :
    Outcome
      (fun x => w.arena.Evolves w'.arena ∧ m.inv w'.arena w'.state ∧ m.fit c x w'.arena)
      (fun _ => w.arena.Evolves w'.arena ∧ m.inv w'.arena w'.state ∧ m.mayFail c w.arena) result := by
  have ended := (behaves.keeps suits).run ⟨inv, allowed⟩ done
  cases result with
  | ok x => exact ended
  | error e => exact ⟨ended.1, ended.2.1, ended.2.2.1⟩

end Behaves

end Transformer

end ProgramTree
