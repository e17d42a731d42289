import ProgramTree.Census
import ProgramTree.Session.Playbook

/-!
Operations on an arena, each with its result as plain data. An operation that fails has the fault as
its result. One whose parts do not fit together has `badInput`, and then leaves the arena alone.
-/

namespace ProgramTree

def Fault.encode (e : Fault) : Datum :=
  .record [("error", .text e.kind), ("message", .text e.message),
    ("node", .ofOption NodeId.encode e.node?)]

namespace Session.Operation

def badInput : Datum :=
  .record [("error", .text "BadInput")]

/-- More steps than a run can take in practice. -/
def patience : Nat :=
  1 <<< 62

def unfinished : Datum :=
  .record [("error", .text "Unfinished")]

def ok : Datum :=
  .text "ok"

def ofExcept {α : Type} (f : α → Datum) : Except Fault α → Datum
  | .ok a => f a
  | .error e => e.encode

def query (f : Arena → Datum) : Action :=
  fun w => (f w.arena, w)

/-! Arena -/

def extent (a : Arena) : Datum :=
  .record [("len", .nat a.size), ("empty", .bool (a.size == 0))]

def alloc (n : Node) : Action :=
  fun w =>
    match w.arena.alloc n with
    | (id, arena) => (.text id.text, { w with arena := arena })

/-- Allocates a node and answers its handle in the node's own category. -/
def allocAs (n : Node) : Action :=
  fun w =>
    match w.arena.alloc n with
    | (id, arena) => (.text (Handle.mk n.category id).text, { w with arena := arena })

def allocChain (make : Nat → Option Node) : (count prev : Nat) → Arena → Option (Nat × Arena)
  | 0, prev, a => some (prev, a)
  | count + 1, prev, a =>
    match make prev with
    | none => none
    | some n =>
      match a.alloc n with
      | (id, a) => allocChain make count id.index a

def allocMany (make : Nat → Option Node) (count prev : Nat) : Action :=
  fun w =>
    match allocChain make count prev w.arena with
    | none => (badInput, w)
    | some (last, arena) =>
      (.record [("last", .nat last), ("len", .nat arena.size)], { w with arena := arena })

def replaceArena (nodes : List Node) : Action :=
  fun w => (extent (.ofList nodes), { w with arena := .ofList nodes })

def size : Action :=
  query extent

def node (id : NodeId) : Action :=
  query fun a => ofExcept (fun n =>
    .record [("node", n.encode), ("tag", .text n.tag.name), ("span", .text n.span.text),
      ("category", .text n.category.name)]) (a.node id)

def ofRecord (t : Tag) (record : Record t.fields) : Datum :=
  .record [("value", record.encode t.fields)]

def get (t : Tag) (id : NodeId) : Action :=
  query fun a => ofExcept (ofRecord t) (a.get t id)

inductive Edit where
  | set (field : String) (value : Datum)
  /-- Inserts into a list, at its end if it is shorter. -/
  | insert (field : String) (position : Nat) (value : Datum)
  /-- Removes from a list, if it reaches that far. -/
  | remove (field : String) (position : Nat)
  deriving Repr

def Edit.perform? (fields : List Field) (r : Record fields) : Edit → Option (Record fields)
  | set field value => r.setField? fields field value
  | insert field position value => r.editList? fields field fun items =>
    items.insertIdx (min position items.length) value
  | remove field position => r.editList? fields field fun items => items.eraseIdx position

/-- Edits a node of variant `t`. The node is looked up first, so that a fault there comes before a
change that is missing or does not fit. -/
def edit (t : Tag) (id : NodeId) (change : Option Edit) : Action :=
  fun w =>
    match w.arena.get t id with
    | .error e => (e.encode, w)
    | .ok record =>
      match change.bind (Edit.perform? t.fields record) with
      | none => (badInput, w)
      | some record => (ofRecord t record, { w with arena := w.arena.put t id record })

def eq (a b : NodeId) : Action :=
  query fun arena => ofExcept (fun same => .record [("eq", .bool same)]) do
    let m ← arena.node a
    let n ← arena.node b
    return m.same n

def dump : Action :=
  query fun a => .record [("nodes", a.encode)]

def census (root : NodeId) : Action :=
  fun w =>
    match ProgramTree.census patience root w with
    | none => (unfinished, w)
    | some (r, w) =>
      (ofExcept (fun counts =>
        .record [("counts", .list (counts.map fun (t, n) => .list [.text t.name, .nat n]))]) r, w)

/-! Taxonomy and small types -/

def tags : Datum :=
  .list (Tag.all.map fun t => .list [.text t.name, .text t.category.name])

def tag (t : Tag) : Datum :=
  .record [("name", .text t.name), ("category", .text t.category.name), ("below", .nat t.rank)]

def kind (n : Node) : Datum :=
  let fitting := .list ((Tag.all.filter fun t => (n.as? t).isSome).map fun t => .text t.name)
  .record [("tag", .text n.tag.name), ("category", .text n.category.name), ("narrow", fitting),
    ("narrow_mut", fitting)]

def span (a b : Span) : Datum :=
  .record [("debug", .text a.text), ("len", .nat a.length), ("empty", .bool a.isEmpty),
    ("merge", .text (a.merge b).text), ("eq", .bool (a = b)), ("dummy", .bool (a = Span.dummy))]

def handle (a b : NodeId) : Datum :=
  .record [
    ("debug", .list (.text a.text :: Category.all.map fun c =>
      .text s!"{(Handle.mk c a).text} {c.name}")),
    ("index", .nat a.index), ("raw", .nat a.index), ("eq", .bool (a = b)),
    ("cmp", .int (if a.index < b.index then -1 else if a = b then 0 else 1))]

/-! Passes -/

structure Settings where
  start : NodeId
  policy : Policy
  counter : UInt64
  quiet : Bool
  book : Playbook

namespace Settings

def stage (s : Settings) (w : World Unit) : Stage :=
  match w with
  | ⟨arena, log, _⟩ => ⟨arena, log, ⟨s.counter, .start 1 s.book.rules #[]⟩⟩

/-- The parts of a result, with the trace unless it is not wanted. -/
def report (s : Settings) (parts : List (String × Datum)) (p : Progress) : Datum :=
  .record (if s.quiet then parts else parts ++ [("trace", .list p.trace.toList)])

end Settings

def leave {σ : Type} (w : World σ) : World Unit :=
  match w with
  | ⟨arena, log, _⟩ => ⟨arena, log, ()⟩

def traverse (s : Settings) (level : Level) (entry : Entry) : Action :=
  fun w =>
    let stage := s.stage w
    let visitor := s.book.visitor level s.policy
    let outcome := match entry with
      | .whole => visitor.traverse patience s.start stage
      | .enter c => visitor.run patience (.enter ⟨c, s.start⟩) stage
      | .dispatch c => visitor.run patience (.dispatch ⟨c, s.start⟩) stage
      | .walk t => visitor.run patience (.walk t s.start) stage
    match outcome with
    | none => (unfinished, w)
    | some (r, stage) =>
      let p := stage.state.own
      (s.report [("result", ofExcept (fun _ => ok) r), ("entries", .nat p.entries)] p, leave stage)

def transformed (s : Settings) (level : Level) : Entry → Stage → Option (Datum × Stage)
  | .whole, w =>
    (transformer.transform patience s.start w).map fun (r, w) =>
      (ofExcept (fun (root, replaced) =>
        .record [("root", .text (Handle.mk .module root).text), ("replaced", .nat replaced.toNat)])
        r, w)
  | .enter c, w => (transformer.run patience (.enter ⟨c, s.start⟩) w).map (handleOf c)
  | .dispatch c, w => (transformer.run patience (.dispatch ⟨c, s.start⟩) w).map (handleOf c)
  | .walk t, w =>
    (transformer.run patience (.walk t s.start) w).map fun (r, w) => (ofExcept (fun _ => ok) r, w)
where
  transformer := s.book.transformer level
  handleOf (c : Category) : Except Fault NodeId × Stage → Datum × Stage
    | (r, w) => (ofExcept (fun id => .record [("handle", .text (Handle.mk c id).text)]) r, w)

def transform (s : Settings) (level : Level) (entry : Entry) : Action :=
  fun w =>
    match transformed s level entry (s.stage w) with
    | none => (unfinished, w)
    | some (result, stage) =>
      let p := stage.state.own
      (s.report [("result", result), ("counter", .nat stage.state.replaced.toNat),
        ("entries", .nat p.entries)] p, leave stage)

def settle (s : Settings) (level : Level) (limit : Nat) : Action :=
  fun w =>
    let before : World Progress := match w with
      | ⟨arena, log, _⟩ => ⟨arena, log, .start 0 s.book.rules #[]⟩
    match ProgramTree.settle patience limit (s.book.pass level s.counter) s.start before with
    | none => (unfinished, w)
    | some (r, w) =>
      let result := ofExcept (fun (f : FixedPoint) =>
        .record [("root", .text (Handle.mk .module f.root).text), ("rounds", .nat f.rounds),
          ("total_replacements", .nat f.total.toNat)]) r
      (s.report [("result", result), ("passes", .nat w.state.round)] w.state, leave w)

/-! Sequences -/

def visitEach (s : Settings) (t : Tag) : Action :=
  fun w =>
    let visit : Option NodeId → Stage → Except Fault Unit × Stage
      | none, w => (.ok (), w)
      | some id, w =>
        match s.book.item id w with
        | (r, w) => (r.map fun _ => (), w)
    match Sequence.forEach patience s.policy (Access.lane t s.start 0) visit (s.stage w) with
    | none => (unfinished, w)
    | some (r, stage) =>
      (s.report [("result", ofExcept (fun _ => ok) r)] stage.state.own, leave stage)

def replaceEach (s : Settings) (t : Tag) : Action :=
  fun w =>
    let replace : Option NodeId → Stage → Except Fault (Option NodeId) × Stage
      | none, w => (.ok none, w)
      | some id, w =>
        match s.book.item id w with
        | (r, w) => (r.map some, w)
    match Sequence.replaceEach patience (Access.lane t s.start 0) replace (s.stage w) with
    | none => (unfinished, w)
    | some (r, stage) =>
      (s.report [("result", ofExcept (fun n => .record [("replaced", .nat n)]) r)]
        stage.state.own, leave stage)

end Session.Operation

end ProgramTree
