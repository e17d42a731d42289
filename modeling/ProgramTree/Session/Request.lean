import ProgramTree.Session.Operation

/-!
Requests: operations given as plain data. A request that cannot be read is answered by `badInput`.
The actions of rules are requests themselves; reading them ends since they are parts of the request.
-/

namespace ProgramTree

namespace Category

def ofTitle? : String → Option Category
  | "Module" => some module
  | "Expression" => some expression
  | "Statement" => some statement
  | "Object" => some object
  | _ => none

end Category

namespace Fault

def decode? : Datum → Option Fault
  | .record [("UnknownNode", d)] => do
    let category ← Category.ofTitle? (← d.need Datum.text? "category")
    return .unknownNode category (← d.need NodeId.decode? "node") (← d.need Named.decode? "found")
  | .record [("VariantMismatch", d)] => do
    return .variantMismatch (← d.need NodeId.decode? "node") (← d.need Named.decode? "expected")
      (← d.need Named.decode? "found")
  | .record [("DanglingHandle", d)] => do
    return .danglingHandle (← d.need NodeId.decode? "node") (← d.need Datum.count? "len")
  | .record [("NoFixedPoint", d)] => do
    return .noFixedPoint (← d.need Datum.count? "rounds")
  | _ => none

end Fault

namespace Session.Request

def answer? : Datum → Option Answer
  | .text "self" => some .self
  | .text "clone" => some .clone
  | .record [("id", d)] => (NodeId.decode? d).map .node
  | .record [("alloc", d)] => (Node.decode? d).map .alloc
  | .record [("child", d)] => d.text?.map .child
  | _ => none

/-- Reads a rule, given how its actions are read. A part that cannot be read counts as absent. -/
def rule (d : Datum) (action : (x : Datum) → sizeOf x < sizeOf d → Action) : Rule where
  hook := d.need Named.decode? "hook"
  node := d.need NodeId.decode? "id"
  lastRound := d.need Datum.count? "until"
  skip := (d.need Datum.word? "skip").getD 0
  times := d.need Datum.word? "times"
  before := ((d.parts? "pre").getD []).map fun x => action x.1 x.2
  walks := (d.need Datum.count? "walk").getD 1
  after := ((d.parts? "post").getD []).map fun x => action x.1 x.2
  counter := d.need Datum.word? "counter"
  fault := d.need Fault.decode? "fail"
  answer := (d.need answer? "ret").getD .walked

def level? (d : Datum) : Option Level :=
  match d with
  | .text "plain" => some .plain
  | .text "entry" => some .entry
  | .text "full" => some .full
  | _ => none

def policy? (d : Datum) : Option Policy :=
  match d with
  | .text "Live" | .text "Default" => some .live
  | .text "Snapshot" => some .snapshot
  | _ => none

def startPoint? (own : String) (d : Datum) : Option Entry :=
  d.text?.bind fun s => if s = own then some .whole else Entry.named.lookup s

/-- The variants whose sequence can be walked by itself. -/
def sequenceTag? (d : Datum) : Option Tag :=
  (Named.decode? d).filter fun t => t = .block ∨ t = .commaSeparatedList

def settings? (d : Datum) (rules : List Rule) : Option Operation.Settings := do
  let _ ← d.needD Datum.list? [] "rules"
  return {
    start := ← d.need NodeId.decode? "id"
    policy := ← d.needD policy? .live "policy"
    counter := ← d.needD Datum.word? 0 "counter"
    quiet := (d.need Datum.bool? "quiet").getD false
    book := ⟨rules, ← d.needD Datum.count? 2000 "limit"⟩ }

def edit? (name : String) (d : Datum) : Option Operation.Edit := do
  let field ← d.need Datum.text? "field"
  match name with
  | "set" => return .set field (← d.field? "value")
  | "insert" => return .insert field (← d.need Datum.count? "at") (← d.field? "value")
  | "remove" => return .remove field (← d.need Datum.count? "at")
  | _ => none

def select? (name : String) (d : Datum) (rules : List Rule) : Option Action :=
  let id := d.need NodeId.decode? "id"
  let tag : Option Tag := d.need Named.decode? "tag"
  let node := d.need Node.decode? "node"
  let level := d.needD level? .entry "level"
  let entry := d.needD (startPoint? name) .whole "entry"
  match name with
  | "alloc" => do return Operation.alloc (← node)
  | "alloc_as" => do return Operation.allocAs (← node)
  | "alloc_many" => do
    let template ← d.field? "node"
    let make (prev : Nat) := Node.decode? (Datum.substitute "$prev" (.nat prev) template)
    return Operation.allocMany make (← d.need Datum.count? "count")
      (← d.needD Datum.count? 0 "prev")
  | "arena" => do
    let _ ← d.needD Datum.count? 0 "capacity"
    return Operation.replaceArena (← d.need (Datum.listOf? Node.decode?) "nodes")
  | "len" => some Operation.size
  | "node" => do return Operation.node (← id)
  | "get" => do return Operation.get (← tag) (← id)
  | "set" | "insert" | "remove" => do return Operation.edit (← tag) (← id) (edit? name d)
  | "eq" => do
    return Operation.eq (← d.need NodeId.decode? "a") (← d.need NodeId.decode? "b")
  | "dump" => some Operation.dump
  | "census" => do return Operation.census (← id)
  | "tags" => some (Operation.query fun _ => Operation.tags)
  | "tag" => do
    let t ← d.need Named.decode? "name"
    return Operation.query fun _ => Operation.tag t
  | "kind" => do
    let n ← node
    return Operation.query fun _ => Operation.kind n
  | "span" => do
    let a ← d.need Span.decode? "a"
    let b ← d.need Span.decode? "b"
    return Operation.query fun _ => Operation.span a b
  | "handle" => do
    let a ← d.need NodeId.decode? "a"
    let b ← d.need NodeId.decode? "b"
    return Operation.query fun _ => Operation.handle a b
  | "error" => do
    let e ← d.need Fault.decode? "value"
    return Operation.query fun _ => e.encode
  | "traverse" => do
    return Operation.traverse (← settings? d rules) (← level) (← entry)
  | "rewrite" => do
    return Operation.transform (← settings? d rules) (← level) (← entry)
  | "fixpoint" => do
    return Operation.settle (← settings? d rules) (← level) (← d.need Datum.count? "max_rounds")
  | "live_each" => do
    return Operation.visitEach (← settings? d rules) (← d.need sequenceTag? "tag")
  | "live_replace" => do
    return Operation.replaceEach (← settings? d rules) (← d.need sequenceTag? "tag")
  | _ => none

def action (d : Datum) : Action :=
  let read? : Option Action := do
    let name ← d.need Datum.text? "do"
    let rules := ((d.parts? "rules").getD []).map fun r => rule r.1 fun x _ =>
      have := r.2
      action x
    select? name d rules
  read?.getD fun w => (Operation.badInput, w)
termination_by sizeOf d

end Session.Request

end ProgramTree
