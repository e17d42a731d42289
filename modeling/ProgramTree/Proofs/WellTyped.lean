import ProgramTree.Proofs.Conduct

/-!
Well-typed arenas. In a well-typed arena every child slot holds a handle that leads to a node of the
slot's category. Passes whose handlers keep the arena so never fail, whatever else the handlers do to
the arena and to the sequences that are just walked (`typed_runs_succeed`).
-/

namespace ProgramTree

/-- All children of all nodes are good. -/
def Arena.WellTyped (a : Arena) : Prop :=
  ∀ id n, a.node id = .ok n → ∀ c ∈ n.children, a.Good c

theorem Arena.WellTyped.good_of_reaches {a : Arena} {root h : Handle} (typed : a.WellTyped)
    (good : a.Good root) (reaches : Reaches a root h) : a.Good h := by
  induction reaches with
  | root => exact good
  | child _ shown child _ => exact typed _ _ shown.1 _ child

/-- A call that is bound to succeed. -/
def Call.Good : Call → Arena → Prop
  | .enter h, a | .dispatch h, a => a.Good h
  | .walk t owner, a => ∃ n, a.node owner = .ok n ∧ n.tag = t

theorem Call.Good.allowed {c : Call} {a : Arena} (good : c.Good a) : c.Allowed a := by
  cases c with
  | enter h | dispatch h => exact trivial
  | walk t owner => exact good

namespace Node

variable {n : Node} {c : Handle} {k i : Nat} {lane : Lane} {new : NodeId}

theorem exists_place {c : Handle} (mem : c ∈ n.children) :
    ∃ k i lane, n.tag.lanes[k]? = some lane ∧ lane.category = c.category ∧
      n.place? k i = some (some c.node) := by
  rw [children, List.mem_flatMap] at mem
  obtain ⟨row, mem, held⟩ := mem
  obtain ⟨k, at_k⟩ := List.getElem?_of_mem mem
  have inRange : k < n.tag.lanes.length := by
    rw [← n.length_rows]
    exact (List.getElem?_eq_some_iff.mp at_k).choose
  have here := List.getElem?_eq_getElem inRange
  rw [getElem?_rows here] at at_k
  obtain rfl := Option.some.inj at_k
  obtain ⟨place, there, same⟩ := List.mem_filterMap.mp held
  obtain ⟨id, rfl, rfl⟩ := Option.map_eq_some_iff.mp same
  obtain ⟨i, there⟩ := List.getElem?_of_mem there
  rw [getElem?_places] at there
  exact ⟨k, i, _, here, rfl, there⟩

theorem place?_fill {k' i' : Nat} {id : NodeId}
    (there : (n.fill k i new).place? k' i' = some (some id)) :
    n.place? k' i' = some (some id) ∨ (k' = k ∧ id = new) := by
  rw [place?_fill_eq] at there
  by_cases here : k = k' ∧ i = i'
  · rw [if_pos here] at there
    obtain ⟨place, -, filled⟩ := Option.map_eq_some_iff.mp there
    exact .inr ⟨here.1.symm, (Option.some.inj filled).symm⟩
  · rw [if_neg here] at there
    exact .inl there

theorem mem_children_fill (here : n.tag.lanes[k]? = some lane) (mem : c ∈ (n.fill k i new).children) :
    c ∈ n.children ∨ c = ⟨lane.category, new⟩ := by
  obtain ⟨k', i', lane', here', category, there⟩ := exists_place mem
  rcases place?_fill there with there | ⟨rfl, same⟩
  · have found : ⟨lane'.category, c.node⟩ ∈ n.children := mem_children here' there
    rw [category] at found
    exact .inl found
  · cases Option.some.inj (here'.symm.trans here)
    exact .inr (by rw [← same, category])

end Node

namespace Arena

variable {a : Arena} {owner new : NodeId} {n : Node} {k i : Nat} {lane : Lane}

/-- Storing a record whose children are good keeps an arena well-typed. -/
theorem WellTyped.put {t : Tag} {record : Record t.fields} (typed : a.WellTyped)
    (stored : a.node owner = .ok n) (tag : n.tag = t)
    (good : ∀ c ∈ (n.withRecord t record).children, a.Good c) : (a.put t owner record).WellTyped := by
  have evolves : a.Evolves (a.put t owner record) := .put stored tag
  intro id m found c mem
  apply evolves.good
  by_cases same : owner = id
  · subst same
    rw [node_put_self stored] at found
    cases found
    exact good c mem
  · rw [node_put_ne same] at found
    exact typed id m found c mem

theorem WellTyped.alloc (typed : a.WellTyped) (good : ∀ c ∈ n.children, a.Good c) :
    (a.alloc n).2.WellTyped := by
  have evolves : a.Evolves (a.alloc n).2 := .alloc n .refl
  intro id m found c mem
  apply evolves.good
  cases old : a.node id with
  | ok m' =>
    rw [node_alloc_of_ok n old] at found
    cases found
    exact typed id m old c mem
  | error e =>
    -- Only the new node was not there before.
    have beyond := (size_le_of_node_error old).1
    have inside := lt_size_of_node found
    rw [size_alloc] at inside
    obtain rfl : id = (a.alloc n).1 := by
      cases id
      simp only [Arena.alloc, Arena.size] at *
      congr
      omega
    rw [node_alloc_self] at found
    cases found
    exact good c mem

theorem WellTyped.store (typed : a.WellTyped) (stored : a.node owner = .ok n)
    (here : n.tag.lanes[k]? = some lane) (good : a.Good ⟨lane.category, new⟩) :
    (a.put n.tag owner (n.fill k i new).record).WellTyped := by
  refine typed.put stored rfl fun c mem => ?_
  rcases Node.mem_children_fill here mem with old | rfl
  · exact typed owner n stored c old
  · exact good

end Arena

/-- Handlers of reading passes that keep an invariant of well-typed arenas. They may rely on it that
calls on good handles succeed, and do not fail for good handles themselves. -/
def Visitor.typed {σ : Type} (inv : Arena → σ → Prop) : Manners σ Visitor.Reply where
  inv := inv
  fit _ _ _ := True
  mayFail c a := ¬ c.Good a

/-- The same for transforming passes, which also answer with nodes of the right category. -/
def Transformer.typed {σ : Type} (inv : Arena → σ → Prop) : Manners (Tally σ) Transformer.Reply where
  inv a s := inv a s.own
  fit
    | .enter h, new, a | .dispatch h, new, a => a.Good ⟨h.category, new⟩
    | .walk .., _, _ => True
  mayFail c a := ¬ c.Good a

section Suits

variable {σ : Type} {inv : Arena → σ → Prop} (typed : ∀ a s, inv a s → a.WellTyped)

include typed

theorem Visitor.typed_suits : (Visitor.typed inv).Suits where
  walked _ _ := trivial
  unknown _ blames := blames.not_good
  child holds stored mem evolves fails _ :=
    absurd (evolves.good (typed _ _ holds _ _ stored _ mem)) fails

theorem Transformer.typed_suits
    (stable : ∀ a b s, inv a s → a.Evolves b → b.WellTyped → inv b s) :
    Transformer.Suits (Transformer.typed inv) where
  walked _ _ := trivial
  unknown _ blames := blames.not_good
  child holds stored mem evolves fails _ :=
    absurd (evolves.good (typed _ _ holds _ _ stored _ mem)) fails
  bump holds := holds
  store holds stored here _ good :=
    stable _ _ _ holds (.put stored rfl) ((typed _ _ holds).store stored here good)

end Suits

/-- For both engines: from a well-typed arena and a good start, with any handlers that keep the arena
well-typed, walk nodes only as the variants that they are, answer with good handles and do not fail
themselves, every run that ends has succeeded, and the arena is well-typed again. A fault that a handler
provokes by a call on a bad handle counts as the handler's own. Handlers may rely on more than that the
arena is well-typed, if the engine's own edits do not break it. -/
theorem typed_runs_succeed {σ : Type} (inv : Arena → σ → Prop) (typed : ∀ a s, inv a s → a.WellTyped)
    (stable : ∀ a b s, inv a s → a.Evolves b → b.WellTyped → inv b s) :
    (∀ v : Visitor σ, v.Behaves (Visitor.typed inv) → ∀ steps c w result w', inv w.arena w.state →
      c.Good w.arena → v.run steps c w = some (result, w') →
        result = .ok () ∧ w'.arena.WellTyped) ∧
    (∀ r : Transformer σ, r.Behaves (Transformer.typed inv) → ∀ steps c w result w',
      inv w.arena w.state.own → c.Good w.arena → r.run steps c w = some (result, w') →
        (∃ reply, result = .ok reply ∧ (Transformer.typed inv).fit c reply w'.arena) ∧
          w'.arena.WellTyped) := by
  constructor
  · intro v behaves steps c w result w' holds good done
    have ended := behaves.run (Visitor.typed_suits typed) holds good.allowed done
    cases result with
    | ok reply => exact ⟨rfl, typed _ _ ended.2.1⟩
    | error e => exact absurd good ended.2.2
  · intro r behaves steps c w result w' holds good done
    have ended := behaves.run (Transformer.typed_suits typed stable) holds good.allowed done
    cases result with
    | ok reply => exact ⟨⟨reply, rfl, ended.2.2⟩, typed _ _ ended.2.1⟩
    | error e => exact absurd good ended.2.2

theorem Node.children_block (statements : List NodeId) (span : Span) :
    Node.children ⟨.block, (statements, ()), span⟩ = statements.map (Handle.mk .statement) :=
  List.append_nil _

/-- Repeats the first statement of the block that is node 0, as long as it is short. -/
def World.addSibling {s : Type} (w : World s) : World s :=
  { w with
    arena := match w.arena.edit .block ⟨0⟩ fun (statements, _) =>
        (if statements.length < 3 then statements ++ statements.take 1 else statements, ()) with
      | .ok a => a
      | .error _ => w.arena }

theorem World.addSibling_evolves {s : Type} (w : World s) : w.arena.Evolves w.addSibling.arena := by
  rw [addSibling]
  dsimp only
  split
  · exact .edit .refl ‹_›
  · exact .refl

theorem World.addSibling_typed {s : Type} {w : World s} (typed : w.arena.WellTyped) :
    w.addSibling.arena.WellTyped := by
  rw [addSibling]
  dsimp only
  split
  · rename_i a edited
    obtain ⟨⟨t, record, span⟩, _, stored, tag, -⟩ := Arena.edit_cases edited
    cases tag
    rw [Arena.edit, Arena.get_of_node stored] at edited
    cases edited
    -- A sibling is one of the statements that are there.
    refine typed.put stored rfl fun c mem => typed _ _ stored c ?_
    obtain ⟨statements, ⟨⟩⟩ := record
    have mem : c ∈ Node.children ⟨.block, (if statements.length < 3 then
      statements ++ statements.take 1 else statements, ()), span⟩ := mem
    rw [Node.children_block] at mem ⊢
    obtain ⟨id, among, rfl⟩ := List.mem_map.mp mem
    refine List.mem_map_of_mem ?_
    by_cases short : statements.length < 3
    · rw [if_pos short] at among
      rcases List.mem_append.mp among with old | first
      · exact old
      · exact List.mem_of_mem_take first
    · rwa [if_neg short] at among
  · exact typed

/-- Passes that insert siblings while the block is walked. The transforming pass puts new statements
in the place of all statements. -/
def Visitor.inserting : Visitor Unit where
  enter h := do
    Script.update World.addSibling
    Script.perform (Call.dispatch h)

def Transformer.inserting : Transformer Unit where
  enter h := do
    Script.update World.addSibling
    let kept ← Script.perform (Call.dispatch h)
    if h.category = .statement then
      Script.step fun w =>
        let (id, a) := w.arena.alloc ⟨.noopStatement, (), .dummy⟩
        (.ok id, { w with arena := a })
    else
      return kept

theorem Visitor.inserting_behaves :
    Visitor.inserting.Behaves (Visitor.typed fun a _ => a.WellTyped) where
  enter h w holds := by
    refine .call w.addSibling_evolves (World.addSibling_typed holds) trivial ?_ ?_
    · exact fun _ _ _ holds' _ => .ok .refl holds' trivial
    · intro e w' _ holds' fails
      exact .error .refl holds' fun good => fails (w.addSibling_evolves.good good)
  method h n w holds shown := by
    refine .call .refl holds ⟨n, shown.1, rfl⟩ ?_ ?_
    · exact fun _ _ _ holds' _ => .ok .refl holds' trivial
    · exact fun _ _ _ _ fails => absurd ⟨n, shown.1, rfl⟩ fails

theorem Transformer.inserting_behaves :
    Transformer.inserting.Behaves (Transformer.typed fun a _ => a.WellTyped) where
  enter h w holds := by
    refine .call w.addSibling_evolves (World.addSibling_typed holds) trivial ?_ ?_
    · intro kept w' _ holds' fit
      change Next.Behaves _ _ _ _ ((if h.category = .statement then _ else _ : Code Unit NodeId) w')
      split
      · rename_i category
        have childless : ∀ c ∈ Node.children ⟨.noopStatement, (), .dummy⟩, w'.arena.Good c := by
          simp [Node.children, Node.rows, Node.table]
        refine .ok (.alloc _ .refl) (holds'.alloc childless) ?_
        exact ⟨_, Arena.node_alloc_self _, category.symm⟩
      · exact .ok .refl holds' fit
    · intro e w' _ holds' fails
      exact .error .refl holds' fun good => fails (w.addSibling_evolves.good good)
  method h n w holds shown := by
    refine .call .refl holds ⟨n, shown.1, rfl⟩ ?_ ?_
    · exact fun _ _ evolves holds' _ => .ok .refl holds' (evolves.good ⟨n, shown⟩)
    · exact fun _ _ _ _ fails => absurd ⟨n, shown.1, rfl⟩ fails

def noopBlock {s : Type} (statements : List NodeId) (noops : Nat) (state : s) : World s where
  arena := .ofList (⟨.block, (statements, ()), .dummy⟩ ::
    List.replicate noops ⟨.noopStatement, (), .dummy⟩)
  log := #[]
  state := state

theorem noopBlock_typed {s : Type} (state : s) : (noopBlock [⟨1⟩] 1 state).arena.WellTyped := by
  rintro ⟨_ | _ | k⟩ n found c mem
  · cases found
    obtain rfl := List.mem_singleton.mp mem
    exact ⟨_, rfl, rfl⟩
  · cases found
    cases mem
  · cases found

theorem typed_runs_succeed_noopBlock :
    Visitor.inserting.run 80 (.enter ⟨.statement, ⟨0⟩⟩) (noopBlock [⟨1⟩] 1 ()) =
        some (.ok (), noopBlock [⟨1⟩, ⟨1⟩, ⟨1⟩] 1 ()) ∧
      (noopBlock [⟨1⟩, ⟨1⟩, ⟨1⟩] 1 ()).arena.WellTyped ∧
      Transformer.inserting.run 80 (.enter ⟨.statement, ⟨0⟩⟩) (noopBlock [⟨1⟩] 1 ⟨0, ()⟩) =
        some (.ok ⟨5⟩, noopBlock [⟨2⟩, ⟨3⟩, ⟨4⟩] 5 ⟨3, ()⟩) ∧
      (noopBlock [⟨2⟩, ⟨3⟩, ⟨4⟩] 5 (Tally.mk 3 ())).arena.WellTyped := by
  have succeed := typed_runs_succeed (fun a (_ : Unit) => a.WellTyped) (fun _ _ typed => typed)
    (fun _ _ _ _ _ typed => typed)
  have visited : Visitor.inserting.run 80 (.enter ⟨.statement, ⟨0⟩⟩) (noopBlock [⟨1⟩] 1 ()) =
      some (.ok (), noopBlock [⟨1⟩, ⟨1⟩, ⟨1⟩] 1 ()) := rfl
  have transformed : Transformer.inserting.run 80 (.enter ⟨.statement, ⟨0⟩⟩)
      (noopBlock [⟨1⟩] 1 ⟨0, ()⟩) = some (.ok ⟨5⟩, noopBlock [⟨2⟩, ⟨3⟩, ⟨4⟩] 5 ⟨3, ()⟩) := rfl
  refine ⟨visited, ?_, transformed, ?_⟩
  · exact (succeed.1 _ Visitor.inserting_behaves 80 (.enter ⟨.statement, ⟨0⟩⟩) _ _ _
      (noopBlock_typed ()) ⟨_, rfl, rfl⟩ visited).2
  · exact (succeed.2 _ Transformer.inserting_behaves 80 (.enter ⟨.statement, ⟨0⟩⟩) _ _ _
      (noopBlock_typed (Tally.mk 0 ())) ⟨_, rfl, rfl⟩ transformed).2

end ProgramTree
