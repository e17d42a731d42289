import ProgramTree.Proofs.Census
import ProgramTree.Proofs.Resolution
import ProgramTree.Proofs.Rounds

/-!
Folding away a variant. The pass answers for a unary operator with the source that the node holds after
the walk over it. The children come first, so that source has been folded itself, and a chain of any
length goes in one run (`Sinks`). What is left of the tree are the other nodes (`Unfolds.folds`), and
nothing is left for a second run.
-/

namespace ProgramTree

variable {a b : Arena} {h : Handle} {n : Node} {g : Handle → NodeId} {id source root : NodeId}

/-- The pass that walks over a unary operator and puts its source in its place. -/
def Transformer.folding {σ : Type} : Transformer σ where
  method t id := do
    Script.perform (Call.walk t id)
    match t with
    | .unaryOperator => Script.read fun w => (w.arena.get .unaryOperator id).map fun (_, source, _) => source
    | _ => return id

namespace Node

def source? : Node → Option NodeId
  | ⟨.unaryOperator, (_, source, _), _⟩ => some source
  | _ => none

theorem source?_eq_none_iff : n.source? = none ↔ n.tag ≠ .unaryOperator := by
  obtain ⟨t, record, span⟩ := n
  cases t with
  | unaryOperator =>
    obtain ⟨op, source, ⟨⟩⟩ := record
    simp [source?]
  | _ => simp [source?]

theorem source?_cases (found : n.source? = some source) :
    ∃ op span, n = ⟨.unaryOperator, (op, source, ()), span⟩ := by
  obtain ⟨t, record, span⟩ := n
  have tag : t = .unaryOperator := by
    by_contra other
    rw [source?_eq_none_iff.mpr other] at found
    cases found
  subst tag
  obtain ⟨op, source', ⟨⟩⟩ := record
  cases found
  exact ⟨op, span, rfl⟩

theorem children_of_source? (found : n.source? = some source) :
    n.children = [⟨.expression, source⟩] := by
  obtain ⟨op, span, rfl⟩ := source?_cases found
  rfl

end Node

/-- Through unary operators, `h` comes down to the node `id`. -/
inductive Sinks (a : Arena) : Handle → NodeId → Prop where
  | stay {h : Handle} {n : Node} : a.Shows h n → n.source? = none → Sinks a h h.node
  | sink {h : Handle} {n : Node} {source id : NodeId} :
      a.Shows h n → n.source? = some source → Sinks a ⟨.expression, source⟩ id → Sinks a h id

theorem Sinks.unique {id' : NodeId} (one : Sinks a h id) (other : Sinks a h id') : id = id' := by
  induction one with
  | stay shown none =>
    cases other with
    | stay => rfl
    | sink shown' some =>
      rw [shown'.unique shown, none] at some
      cases some
  | sink shown some _ ih =>
    cases other with
    | stay shown' none =>
      rw [shown'.unique shown, some] at none
      cases none
    | sink shown' some' below =>
      rw [shown'.unique shown, some] at some'
      cases some'
      exact ih below

theorem Founded.sinks (founded : Founded a h) : ∃ id, Sinks a h id := by
  induction founded with
  | @node h n shown _ ih =>
    cases found : n.source? with
    | none => exact ⟨_, .stay shown found⟩
    | some source =>
      obtain ⟨id, sinks⟩ := ih ⟨.expression, source⟩ (by simp [Node.children_of_source? found])
      exact ⟨id, .sink shown found sinks⟩

theorem category_of_source? (shown : a.Shows h n) (found : n.source? = some source) :
    h.category = .expression := by
  obtain ⟨op, span, rfl⟩ := Node.source?_cases found
  exact shown.2.symm

theorem Sinks.end_shown (sinks : Sinks a h id) :
    ∃ n, a.Shows ⟨h.category, id⟩ n ∧ n.source? = none := by
  induction sinks with
  | stay shown none => exact ⟨_, shown, none⟩
  | sink shown some _ ih =>
    rw [category_of_source? shown some]
    exact ih

/-- The node that a handle comes down to. -/
noncomputable def Arena.sink (a : Arena) (h : Handle) : NodeId :=
  open Classical in if sinks : ∃ id, Sinks a h id then sinks.choose else h.node

theorem Sinks.sink_eq (sinks : Sinks a h id) : a.sink h = id := by
  have found : ∃ id, Sinks a h id := ⟨id, sinks⟩
  rw [Arena.sink, dif_pos found]
  exact found.choose_spec.unique sinks

namespace Founded

theorem sink_of_none (shown : a.Shows h n) (none : n.source? = none) : a.sink h = h.node :=
  (Sinks.stay shown none).sink_eq

theorem sink_of_some (founded : Founded a h) (shown : a.Shows h n) (some : n.source? = some source) :
    a.sink h = a.sink ⟨.expression, source⟩ := by
  have child : ⟨.expression, source⟩ ∈ n.children := by simp [Node.children_of_source? some]
  obtain ⟨id, sinks⟩ := (founded.child shown child).sinks
  rw [sinks.sink_eq, (Sinks.sink shown some sinks).sink_eq]

theorem sink_shown (founded : Founded a h) :
    ∃ n, a.Shows ⟨h.category, a.sink h⟩ n ∧ n.source? = none := by
  obtain ⟨id, sinks⟩ := founded.sinks
  rw [sinks.sink_eq]
  exact sinks.end_shown

theorem sink_ne_iff (founded : Founded a h) (shown : a.Shows h n) :
    a.sink h ≠ h.node ↔ n.tag = .unaryOperator := by
  rw [← not_iff_not, not_not, ← ne_eq, ← Node.source?_eq_none_iff]
  refine ⟨fun same => ?_, sink_of_none shown⟩
  obtain ⟨n', shown', none⟩ := founded.sink_shown
  rw [same] at shown'
  rwa [shown.unique shown']

end Founded

theorem Arena.sink_resolution (a : Arena) : Resolution a a.sink where
  fixed founded := by
    obtain ⟨n, shown, none⟩ := founded.sink_shown
    exact Founded.sink_of_none shown none
  leads {h n} founded shown := by
    cases found : n.source? with
    | none => exact .inl (Founded.sink_of_none shown found)
    | some source =>
      refine .inr (.inr ⟨⟨.expression, source⟩, by simp [Node.children_of_source? found],
        (category_of_source? shown found).symm, founded.sink_of_some shown found⟩)

namespace Transformer

variable {σ : Type}

theorem folding_unary (id : NodeId) :
    (((folding : Transformer σ).method .unaryOperator id).embed : Task σ NodeId) =
      (Script.perform (Sum.inl (Call.walk .unaryOperator id)) >>= fun _ => Script.read fun w =>
        (w.arena.get .unaryOperator id).map fun (_, source, _) => source) :=
  Script.embed_bind ..

theorem folding_other {t : Tag} (other : t ≠ .unaryOperator) (id : NodeId) :
    (((folding : Transformer σ).method t id).embed : Task σ NodeId) =
      (Script.perform (Sum.inl (Call.walk t id)) >>= fun _ => pure id) := by
  cases t with
  | unaryOperator => exact absurd rfl other
  | _ => exact Script.embed_bind ..

theorem folding_resolves (a : Arena) : (folding : Transformer σ).Resolves a a.sink where
  toResolution := a.sink_resolution
  enter {h n m past w good} founded shown shown' tag walks := by
    have walked : ∀ past, Ends (folding : Transformer σ).body past
        (Script.perform (Sum.inl (Call.walk n.tag h.node)) w)
        (fun _ _ w' => w'.arena.node h.node = .ok (n.mapChildren a.sink) ∧ good w')
        fun _ _ _ => False := fun past => .call (walks _)
    refine .call (.call ?_)
    rw [body, Script.step_bind (World.classify_of_shows shown'), tag]
    cases found : n.source? with
    | none =>
      rw [folding_other (Node.source?_eq_none_iff.mp found)]
      refine .bind (walked _) fun _ _ w' holds => .ok ⟨?_, holds.2⟩
      exact (Founded.sink_of_none shown found).symm
    | some source =>
      rw [founded.sink_of_some shown found]
      obtain ⟨op, span, rfl⟩ := Node.source?_cases found
      rw [folding_unary]
      refine .bind (walked _) fun _ _ w' holds => ?_
      -- The walk has put there what the source comes to.
      have held : w'.arena.get .unaryOperator h.node = .ok (op, a.sink ⟨.expression, source⟩, ()) :=
        Arena.get_of_node holds.1
      rw [Script.read, held]
      exact .ok ⟨rfl, holds.2⟩

end Transformer

/-- The nodes of a variant that are reached from the root. -/
def Arena.reached (a : Arena) (root : NodeId) (t : Tag) : Set NodeId :=
  {id | ∃ h n, Reaches a ⟨.module, root⟩ h ∧ a.Shows h n ∧ h.node = id ∧ n.tag = t}

theorem Founded.mem_looseFrom_sink {slot : NodeId × Nat} (founded : Founded a ⟨.module, root⟩) :
    slot ∈ a.looseFrom a.sink ⟨.module, root⟩ ↔
      ∃ c n, Holds a ⟨.module, root⟩ slot c ∧ a.Shows c n ∧ n.tag = .unaryOperator := by
  have below : ∀ c, Holds a ⟨.module, root⟩ slot c → Founded a c := by
    rintro c ⟨h, n, reached, shown, -, child⟩
    exact founded.of_reaches (reached.child shown (List.mem_of_getElem? child))
  constructor
  · rintro ⟨c, holds, comes⟩
    obtain ⟨n, shown⟩ := (below c holds).shows
    exact ⟨c, n, holds, shown, ((below c holds).sink_ne_iff shown).mp comes⟩
  · rintro ⟨c, n, holds, shown, tag⟩
    exact ⟨c, holds, ((below c holds).sink_ne_iff shown).mpr tag⟩

/-- In a tree, there are as many slots that hold unary operators as unary operators. -/
theorem SingleOwner.ncard_looseFrom_sink (single : SingleOwner a ⟨.module, root⟩)
    (founded : Founded a ⟨.module, root⟩) :
    (a.looseFrom a.sink ⟨.module, root⟩).ncard = (a.reached root .unaryOperator).ncard := by
  have occupied : ∀ slot ∈ a.looseFrom a.sink ⟨.module, root⟩, ∃ c n,
      Holds a ⟨.module, root⟩ slot c ∧ a.Shows c n ∧ n.tag = .unaryOperator := fun _ =>
    founded.mem_looseFrom_sink.mp
  refine Set.ncard_congr (fun slot mem => (occupied slot mem).choose.node) ?_ ?_ ?_
  · intro slot mem
    obtain ⟨n, ⟨h, m, reached, shown, -, child⟩, shown', tag⟩ := (occupied slot mem).choose_spec
    exact ⟨_, n, reached.child shown (List.mem_of_getElem? child), shown', rfl, tag⟩
  · intro slot slot' mem mem' same
    obtain ⟨n, holds, shown, -⟩ := (occupied slot mem).choose_spec
    obtain ⟨-, holds', -⟩ := (occupied slot' mem').choose_spec
    exact single.one_slot holds holds' same shown.1
  · rintro _ ⟨h, n, reached, shown, rfl, tag⟩
    cases reached with
    | root =>
      have category : n.tag.category = .module := shown.2
      rw [tag] at category
      cases category
    | @child owner _ m reached shown' child =>
      obtain ⟨j, there⟩ := List.mem_iff_getElem?.mp child
      have holds : Holds a ⟨.module, root⟩ (owner.node, j) h := ⟨owner, m, reached, shown', rfl, there⟩
      have mem := founded.mem_looseFrom_sink.mpr ⟨h, n, holds, shown, tag⟩
      refine ⟨_, mem, ?_⟩
      -- The occupant that was chosen for the slot is the one it holds.
      obtain ⟨n', ⟨h', m', -, shown'', same, there'⟩, -⟩ := (occupied _ mem).choose_spec
      have one : m' = m := Except.ok.inj (shown''.1.symm.trans (same ▸ shown'.1))
      subst one
      exact congrArg Handle.node (Option.some.inj (there'.symm.trans there))

/-- The unary operators are gone from the unfolding, and the other nodes stand in the same order. -/
theorem Unfolds.folds {hs : List Handle} {f : Forest} (unfolds : Unfolds a ∅ hs f) (none : f.stubs = [])
    (folded : ∀ p ∈ f.nodes, b.node p.1.node = .ok (p.2.mapChildren a.sink)) :
    ∃ f', Unfolds b ∅ (hs.map fun h => ⟨h.category, a.sink h⟩) f' ∧ f'.stubs = [] ∧
      f'.nodes.map (fun p => p.2.tag) =
        (f.nodes.map fun p => p.2.tag).filter (· ≠ .unaryOperator) := by
  induction unfolds with
  | nil => exact ⟨.nil, .nil, rfl, rfl⟩
  | stub _ _ _ => cases none
  | cut _ tag _ _ => exact absurd tag (Finset.notMem_empty _)
  | @node h n hs kids rest shown tag below right ihKids ihRest =>
    have founded : Founded a h :=
      Founded.of_unfolds (.node shown tag below right) none h List.mem_cons_self
    rw [Forest.stubs, List.append_eq_nil_iff] at none
    obtain ⟨here, others⟩ := List.forall_mem_cons.mp folded
    obtain ⟨foldedKids, foldedRest⟩ := List.forall_mem_append.mp others
    obtain ⟨kids', below', noneKids, tagsKids⟩ := ihKids none.1 foldedKids
    obtain ⟨rest', right', noneRest, tagsRest⟩ := ihRest none.2 foldedRest
    cases found : n.source? with
    | none =>
      have other := Node.source?_eq_none_iff.mp found
      refine ⟨.node h (n.mapChildren a.sink) kids' rest', ?_, ?_, ?_⟩
      · rw [List.map_cons, Founded.sink_of_none shown found]
        refine .node ⟨here, shown.2⟩ (Finset.notMem_empty _) ?_ right'
        rwa [Node.children_mapChildren]
      · rw [Forest.stubs, noneKids, noneRest, List.append_nil]
      · have kept : (n.mapChildren a.sink).tag = n.tag := rfl
        simp [Forest.nodes, tagsKids, tagsRest, kept, other]
    | some source =>
      -- What the source comes to stands in the place of the operator.
      have gone : n.tag = .unaryOperator := by
        obtain ⟨op, span, rfl⟩ := Node.source?_cases found
        rfl
      refine ⟨kids'.append rest', ?_, ?_, ?_⟩
      · rw [Node.children_of_source? found] at below'
        rw [List.map_cons, founded.sink_of_some shown found, category_of_source? shown found]
        exact below'.append right'
      · rw [Forest.stubs_append, noneKids, noneRest, List.append_nil]
      · simp [Forest.nodes, Forest.nodes_append, tagsKids, tagsRest, gone]

/-- The census of any world with the arena `a` is `counts`. -/
def Arena.HasCensus (a : Arena) (root : NodeId) (counts : List (Tag × Nat)) : Prop :=
  ∀ (σ : Type) (w : World σ), w.arena = a → ∃ enough, ∀ steps, enough ≤ steps →
    census steps root w = some (.ok counts, w.note (.started .traverse root))

theorem Unfolds.hasCensus {f : Forest} (unfolds : Unfolds a ∅ [⟨.module, root⟩] f)
    (none : f.stubs = []) :
    a.HasCensus root (Census.counts (f.nodes.map fun p => p.2.tag).reverse) := by
  rintro σ w rfl
  exact census_of_unfolds unfolds none

namespace Transformer.Reports

open FixedPoint

variable {σ : Type} {r : Transformer σ} {count limit : Nat} {start : UInt64} {w : World σ}

theorem round (reports : r.Reports root a b count) (same : w.arena = a)
    (fits : start.toNat + count < 2 ^ 64) :
    ∃ enough w', w'.arena = b ∧ ∀ steps, enough ≤ steps →
      FixedPoint.round steps (r.renewed start) root w =
        some (.ok (root, UInt64.ofNat count), w') := by
  obtain ⟨enough, w', ended, runs⟩ := reports ⟨w.arena, w.log, ⟨start, w.state⟩⟩ same fits
  exact ⟨enough, ⟨w'.arena, w'.log, w'.state.own⟩, ended, fun steps more =>
    congrArg (Option.map _) (runs steps more)⟩

/-- A pass that leaves nothing to do settles in two rounds, or in one if there was nothing to do. -/
theorem settles (reports : r.Reports root a b count) (again : r.Reports root b b 0)
    (same : w.arena = a) (enoughRounds : 2 ≤ limit) (fits : start.toNat + count < 2 ^ 64) :
    ∃ enough w', w'.arena = b ∧ ∀ steps, enough ≤ steps →
      settle steps limit (r.renewed start) root w =
        some (.ok ⟨root, if 0 < count then 2 else 1, UInt64.ofNat count⟩, w') := by
  have begun : (w.note (.started .settle root)).arena = a := same
  obtain ⟨enough, w₁, ended, first⟩ := reports.round begun fits
  by_cases zero : count = 0
  · subst zero
    refine ⟨enough, w₁.note (.settled 1 0), ended, fun steps more => ?_⟩
    exact settle_of_settled .start (by simp; omega) (first steps more)
  · have fits' : start.toNat + 0 < 2 ^ 64 := by omega
    obtain ⟨later, w₂, ended', second⟩ := again.round ended fits'
    refine ⟨max enough later, w₂.note (.settled 2 (UInt64.ofNat count)), ended', fun steps more => ?_⟩
    have changed : ¬(UInt64.ofNat count = 0 ∧ root = root) := by
      rintro ⟨none, -⟩
      have := congrArg UInt64.toNat none
      rw [UInt64.toNat_ofNat'] at this
      simp at this
      omega
    have rounds : Rounds steps (r.renewed start) root (w.note (.started .settle root))
        ([] ++ [UInt64.ofNat count]) root w₁ := .next .start (first steps (by omega)) changed
    have less : ([] ++ [UInt64.ofNat count]).length < limit := by simp; omega
    rw [if_pos (by omega)]
    simpa using settle_of_settled rounds less (second steps (by omega))

end Transformer.Reports

open Transformer in
/-- In a tree, one run folds all unary operators away, however deep they are nested. It keeps the root
and reports one overwritten slot for each of them. The census finds none of them afterwards, and of each
other variant as many nodes as before. A repeated transformation finds nothing left in its second
round. -/
theorem folding_removes_unaries {σ : Type} [Inhabited σ] (a : Arena) (root : NodeId)
    (single : SingleOwner a ⟨.module, root⟩)
    (good : ∀ h, Reaches a ⟨.module, root⟩ h → a.Good h) :
    let count := (a.reached root .unaryOperator).ncard
    ∃ (b : Arena) (before after : List (Tag × Nat)),
      (folding : Transformer σ).Reports root a b count ∧
      a.HasCensus root before ∧ b.HasCensus root after ∧
      after.lookup .unaryOperator = none ∧
      (∀ t, t ≠ .unaryOperator → after.lookup t = before.lookup t) ∧
      ∀ (start : UInt64) (limit : Nat) (w : World σ), w.arena = a → 2 ≤ limit →
        start.toNat + count < 2 ^ 64 →
        ∃ enough w', w'.arena = b ∧ ∀ steps, enough ≤ steps →
          settle steps limit (folding.renewed start) root w =
            some (.ok ⟨root, if 0 < count then 2 else 1, UInt64.ofNat count⟩, w') := by
  intro count
  obtain ⟨f, unfolds⟩ := single.exists_unfolds ∅
  have none := unfolds.stubs_eq_nil good
  have founded := Founded.of_unfolds unfolds none ⟨.module, root⟩ List.mem_cons_self
  have keeps : a.sink ⟨.module, root⟩ = root := by
    obtain ⟨n, shown⟩ := founded.shows
    refine Founded.sink_of_none shown (Node.source?_eq_none_iff.mpr fun tag => ?_)
    have category : n.tag.category = .module := shown.2
    rw [tag] at category
    cases category
  obtain ⟨b, becomes, reports⟩ := (folding_resolves (σ := σ) a).reports founded keeps
  rw [single.ncard_looseFrom_sink founded] at reports
  have rests := (a.sink_resolution.rests founded becomes.stays becomes.reached).1
  have again := (folding_resolves (σ := σ) a).reports_rest rests keeps
  obtain ⟨f', unfolds', none', tags⟩ := unfolds.folds none (b := b) fun p mem =>
    becomes.reached p.1 p.2 (unfolds.reaches_of_mem_nodes p mem) (unfolds.shows_of_mem p mem)
  rw [List.map_singleton, keeps] at unfolds'
  refine ⟨b, _, _, reports, unfolds.hasCensus none, unfolds'.hasCensus none', ?_, fun t other => ?_,
    fun start limit w same rounds fits => reports.settles again same rounds fits⟩
  · simp [Census.lookup_counts, tags, List.count_eq_zero]
  · rw [Census.lookup_counts, Census.lookup_counts, tags, List.count_reverse, List.count_reverse,
      List.count_filter (by simpa using other)]

/-- A namespace with the negation of a sum, on the left side of which a number is negated twice. -/
def negationSample : World Unit where
  arena := .ofList
    [⟨.nameSpace, ("all", [], [], [], [⟨1⟩], [], ()), .dummy⟩,
      ⟨.unaryOperator, (.negate, ⟨2⟩, ()), .dummy⟩, ⟨.binaryOperator, (.add, ⟨3⟩, ⟨6⟩, ()), .dummy⟩,
      ⟨.unaryOperator, (.negate, ⟨4⟩, ()), .dummy⟩, ⟨.unaryOperator, (.negate, ⟨5⟩, ()), .dummy⟩,
      ⟨.constant, (.int 1, ()), .dummy⟩, ⟨.constant, (.int 2, ()), .dummy⟩]
  log := #[]
  state := ()

theorem negationSample_reached :
    negationSample.arena.reached ⟨0⟩ .unaryOperator = {⟨1⟩, ⟨3⟩, ⟨4⟩} := by
  have first : Reaches negationSample.arena ⟨.module, ⟨0⟩⟩ ⟨.expression, ⟨1⟩⟩ :=
    .child .root ⟨rfl, rfl⟩ List.mem_cons_self
  have sum : Reaches negationSample.arena ⟨.module, ⟨0⟩⟩ ⟨.expression, ⟨2⟩⟩ :=
    first.child ⟨rfl, rfl⟩ List.mem_cons_self
  have outer : Reaches negationSample.arena ⟨.module, ⟨0⟩⟩ ⟨.expression, ⟨3⟩⟩ :=
    sum.child ⟨rfl, rfl⟩ List.mem_cons_self
  have inner : Reaches negationSample.arena ⟨.module, ⟨0⟩⟩ ⟨.expression, ⟨4⟩⟩ :=
    outer.child ⟨rfl, rfl⟩ List.mem_cons_self
  ext id
  constructor
  · rintro ⟨⟨category, id⟩, n, -, shown, rfl, tag⟩
    have stored := shown.1
    obtain ⟨_ | _ | _ | _ | _ | _ | _ | k⟩ := id
    · cases stored; cases tag
    · exact .inl rfl
    · cases stored; cases tag
    · exact .inr (.inl rfl)
    · exact .inr (.inr rfl)
    · cases stored; cases tag
    · cases stored; cases tag
    · cases stored
  · rintro (rfl | rfl | rfl)
    · exact ⟨_, _, first, ⟨rfl, rfl⟩, rfl, rfl⟩
    · exact ⟨_, _, outer, ⟨rfl, rfl⟩, rfl, rfl⟩
    · exact ⟨_, _, inner, ⟨rfl, rfl⟩, rfl, rfl⟩

/-- All three negations go in the first round, and both numbers stay. -/
theorem folding_removes_unaries_negationSample :
    ∃ (b : Arena) (after : List (Tag × Nat)), b.HasCensus ⟨0⟩ after ∧
      after.lookup .unaryOperator = none ∧ after.lookup .constant = some 2 ∧
      ∃ enough w', w'.arena = b ∧ ∀ steps, enough ≤ steps →
        settle steps 2 ((Transformer.folding : Transformer Unit).renewed 0) ⟨0⟩ negationSample =
          some (.ok ⟨⟨0⟩, 2, 3⟩, w') := by
  have unfolds : Unfolds negationSample.arena ∅ [⟨.module, ⟨0⟩⟩] _ :=
    .node ⟨rfl, rfl⟩ (by decide)
      (.node ⟨rfl, rfl⟩ (by decide)
        (.node ⟨rfl, rfl⟩ (by decide)
          (.node ⟨rfl, rfl⟩ (by decide)
            (.node ⟨rfl, rfl⟩ (by decide) (.node ⟨rfl, rfl⟩ (by decide) .nil .nil) .nil)
            (.node ⟨rfl, rfl⟩ (by decide) .nil .nil)) .nil) .nil) .nil
  have three : (negationSample.arena.reached ⟨0⟩ .unaryOperator).ncard = 3 := by
    rw [negationSample_reached, Set.ncard_eq_three]
    exact ⟨⟨1⟩, ⟨3⟩, ⟨4⟩, by decide, by decide, by decide, rfl⟩
  obtain ⟨b, before, after, -, census, census', gone, kept, settles⟩ :=
    folding_removes_unaries (σ := Unit) negationSample.arena ⟨0⟩ (.of_slots unfolds (by decide))
      fun h => unfolds.shows_of_reaches rfl
  have counted : before = [(.nameSpace, 1), (.constant, 2), (.binaryOperator, 1), (.unaryOperator, 3)] := by
    obtain ⟨enough, done⟩ := census Unit negationSample rfl
    have same : ProgramTree.census 100 ⟨0⟩ negationSample = some
        (.ok [(.nameSpace, 1), (.constant, 2), (.binaryOperator, 1), (.unaryOperator, 3)],
          negationSample.note (.started .traverse ⟨0⟩)) := rfl
    have more := census_mono (Nat.le_max_right enough 100) same
    rw [done _ (Nat.le_max_left enough 100)] at more
    simpa using more
  have settled := settles 0 2 negationSample rfl le_rfl (by rw [three]; decide)
  rw [three] at settled
  refine ⟨b, after, census', gone, ?_, settled⟩
  rw [kept .constant (by decide), counted]
  rfl

end ProgramTree
