import ProgramTree.Arena
import ProgramTree.Datum
import ProgramTree.Hex

/-!
Nodes as plain data. A node is written as its tag, its fields by name, and its span. A field that
may be absent is written as `null` then and need not be given when read; names that are not fields
of the variant are passed over. Fields are also read from a list of all of them without their names,
and a word also from a record that has it as the name of a `null`.
-/

namespace ProgramTree

namespace NodeId

def encode (id : NodeId) : Datum :=
  .nat id.index

def decode? (d : Datum) : Option NodeId :=
  (d.below? limit).map NodeId.mk

end NodeId

namespace Literal

def encode : Literal → Datum
  | int value => .record [("Int", .int value.toInt)]
  | float bits => .record [("Float", .text (Hex.encode bits))]
  | bool value => .record [("Bool", .bool value)]
  | text value => .record [("Str", .text value)]

def int64? (d : Datum) : Option Int64 :=
  (d.int?.filter fun n => Int64.minValue.toInt ≤ n ∧ n ≤ Int64.maxValue.toInt).map Int64.ofInt

def decode? : Datum → Option Literal
  | .record [("Int", d)] => (int64? d).map int
  | .record [("Float", d)] => (d.text?.bind Hex.decode?).map float
  | .record [("Bool", d)] => d.bool?.map bool
  | .record [("Str", d)] => d.text?.map text
  | _ => none

end Literal

namespace Named

variable {α : Type} [Named α]

def encode (a : α) : Datum :=
  .text (name a)

def decode? (d : Datum) : Option α :=
  d.text?.bind ofName?

def wordOf? : Datum → Option α
  | .record [(s, .null)] => ofName? s
  | d => decode? d

end Named

namespace ConnectionEnd

def encode (e : ConnectionEnd) : Datum :=
  .record [("processor", .ofOption .text e.processor), ("endpoint", .text e.endpoint)]

def decode? (d : Datum) : Option ConnectionEnd := do
  let d := d.byName ["processor", "endpoint"]
  let endpoint ← (← d.field? "endpoint").text?
  let processor ← d.optionalField? Datum.text? "processor"
  return ⟨processor, endpoint⟩

end ConnectionEnd

namespace Labelled

def encode (key : String) (item : Labelled) : Datum :=
  .record [("name", .text item.label), (key, item.child.encode)]

def decode? (key : String) (d : Datum) : Option Labelled := do
  let d := d.byName ["name", key]
  let label ← (← d.field? "name").text?
  let child ← NodeId.decode? (← d.field? key)
  return ⟨label, child⟩

end Labelled

namespace EndpointDetails

def encode (e : EndpointDetails) : Datum :=
  .record [("kind", Named.encode e.kind), ("sample_types", .list (e.sampleTypes.map NodeId.encode)),
    ("array_size", .ofOption NodeId.encode e.arraySize)]

def decode? (d : Datum) : Option EndpointDetails := do
  let d := d.byName ["kind", "sample_types", "array_size"]
  let kind ← Named.wordOf? (← d.field? "kind")
  let sampleTypes ← (← d.field? "sample_types").listOf? NodeId.decode?
  let arraySize ← d.optionalField? NodeId.decode? "array_size"
  return ⟨kind, sampleTypes, arraySize⟩

end EndpointDetails

namespace PathSection

def encode (s : PathSection) : Datum :=
  .record [("name", .text s.label), ("index", .ofOption NodeId.encode s.index)]

def decode? (d : Datum) : Option PathSection := do
  let d := d.byName ["name", "index"]
  let label ← (← d.field? "name").text?
  let index ← d.optionalField? NodeId.decode? "index"
  return ⟨label, index⟩

end PathSection

namespace FieldType

def encode : (ty : FieldType) → ty.Val → Datum
  | text, s => .text s
  | flag, b => .bool b
  | path, names => .list (names.map .text)
  | literal, v => Literal.encode v
  | word _, a => Named.encode a
  | connectionEnd, e => ConnectionEnd.encode e
  | link _, id => NodeId.encode id
  | child _, id => NodeId.encode id
  | optional _, id? => .ofOption NodeId.encode id?
  | sequence _, ids => .list (ids.map NodeId.encode)
  | labelled key, items => .list (items.map (Labelled.encode key))
  | details, d? => .ofOption EndpointDetails.encode d?
  | childPath, sections? =>
    .ofOption (fun sections => .record [("sections", .list (sections.map PathSection.encode))])
      sections?

def decode? : (ty : FieldType) → Datum → Option ty.Val
  | text, d => d.text?
  | flag, d => d.bool?
  | path, d => d.listOf? Datum.text?
  | literal, d => Literal.decode? d
  | word _, d => Named.wordOf? d
  | connectionEnd, d => ConnectionEnd.decode? d
  | link _, d => NodeId.decode? d
  | child _, d => NodeId.decode? d
  | optional _, d => Datum.option? NodeId.decode? d
  | sequence _, d => d.listOf? NodeId.decode?
  | labelled key, d => d.listOf? (Labelled.decode? key)
  | details, d => Datum.option? EndpointDetails.decode? d
  | childPath, d =>
    Datum.option? (fun d =>
      ((d.byName ["sections"]).field? "sections").bind (Datum.listOf? PathSection.decode?)) d

/-- The value of a field that is not given. -/
def absent? : (ty : FieldType) → Option ty.Val
  | optional _ => some none
  | details => some none
  | childPath => some none
  | _ => none

end FieldType

namespace Record

def entries : (fields : List Field) → Record fields → List (String × Datum)
  | [], _ => []
  | f :: fields, (v, r) => (f.name, f.type.encode v) :: entries fields r

def ofDatum? (d : Datum) : (fields : List Field) → Option (Record fields)
  | [] => some ()
  | f :: fields => do
    let v ← match d.field? f.name with
      | some v => f.type.decode? v
      | none => f.type.absent?
    let r ← ofDatum? d fields
    return (v, r)

/-- A variant without fields is written as `null`. -/
def encode : (fields : List Field) → Record fields → Datum
  | [], _ => .null
  | f :: fields, r => .record (entries (f :: fields) r)

def decode? : (fields : List Field) → Datum → Option (Record fields)
  | [], .null => some ()
  | f :: fields, .record entries => ofDatum? (.record entries) (f :: fields)
  | _, _ => none

def field? : (fields : List Field) → Record fields → String → Option Datum
  | [], _, _ => none
  | f :: fields, (v, r), name =>
    if f.name = name then some (f.type.encode v) else field? fields r name

def setField? : (fields : List Field) → Record fields → String → Datum → Option (Record fields)
  | [], _, _, _ => none
  | f :: fields, (v, r), name, d =>
    if f.name = name then (f.type.decode? d).map fun v' => (v', r)
    else (setField? fields r name d).map fun r' => (v, r')

/-- Changes the field called `name`, which has to be a list, through its elements. -/
def editList? (fields : List Field) (r : Record fields) (name : String)
    (f : List Datum → List Datum) : Option (Record fields) := do
  let items ← (← field? fields r name).list?
  setField? fields r name (.list (f items))

end Record

namespace Span

def encode (s : Span) : Datum :=
  .list [.nat s.start.toNat, .nat s.stop.toNat]

def decode? : Datum → Option Span
  | .list [start, stop] => do
    return ⟨(← start.below? UInt32.size).toUInt32, (← stop.below? UInt32.size).toUInt32⟩
  | _ => none

end Span

namespace Tag

/-- The order of the fields when they are given as a list. A call then has its name first, though its
arguments are visited before it. The field of a constant is always named. -/
def listing : Tag → List String
  | constant => []
  | callOrCast => ["name_or_type", "arguments", "is_method_call"]
  | t => t.fields.map Field.name

end Tag

namespace Node

def encodeFields (n : Node) : Datum :=
  n.record.encode n.tag.fields

def encode (n : Node) : Datum :=
  .list [.text n.tag.name, n.encodeFields, n.span.encode]

def decodeParts? (tag fields : Datum) (span : Span) : Option Node := do
  let t : Tag ← Named.decode? tag
  let record ← Record.decode? t.fields (fields.byName t.listing)
  return ⟨t, record, span⟩

/-- Reads a node. A node without a span comes from no source text. -/
def decode? : Datum → Option Node
  | .list [tag, fields] => decodeParts? tag fields Span.dummy
  | .list [tag, fields, span] => do decodeParts? tag fields (← Span.decode? span)
  | _ => none

end Node

namespace Arena

def encode (a : Arena) : Datum :=
  .list (a.nodes.toList.map Node.encode)

def decode? (d : Datum) : Option Arena :=
  (d.listOf? Node.decode?).map ofList

end Arena

end ProgramTree
