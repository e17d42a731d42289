import ProgramTree.Proofs.Encoding

/-!
Nodes and arenas written as data. Every node is read as it was written, whatever it stores, if only its
handles can be written at all. What is read from data that give exactly the declared fields is written as
it was, up to the order of the fields (`snapshots_round_trip`). Both hold field by field: a codec for each
type of field (`FieldType.faithful`), then for each list of fields with different names
(`Record.faithful`), of which the variants are instances.
-/

namespace ProgramTree

open Datum

theorem optionalField?_of_given {α : Type} {read : Datum → Option α} {d u : Datum} {name : String}
    (given : d.field? name = some u) : d.optionalField? read name = option? read u := by
  simp [optionalField?, given]

namespace ConnectionEnd

theorem faithful :
    Faithful (fun _ => True) (Declares ["processor", "endpoint"]) encode decode? where
  reads e _ := by
    obtain ⟨processor, endpoint⟩ := e
    cases processor <;> rfl
  formed e := ⟨_, rfl, .refl _⟩
  writes {d e} read declares := by
    simp only [decode?, declares.byName, Option.bind_eq_bind, Option.pure_def, Option.bind_eq_some_iff,
      Option.some.injEq] at read
    obtain ⟨v, there, endpoint, found, processor, found', rfl⟩ := read
    refine declares.reorder (by decide) rfl fun name v mem u given => ?_
    obtain ⟨rfl, rfl⟩ | ⟨rfl, rfl⟩ : name = "processor" ∧ v = ofOption .text processor ∨
        name = "endpoint" ∧ v = .text endpoint := by simpa using mem
    · rw [optionalField?_of_given given] at found'
      exact optionalText_faithful.writes found' trivial
    · cases there.symm.trans given
      exact text_faithful.writes found trivial

end ConnectionEnd

namespace Labelled

/-- The label and the child of an item are told apart if the child is not stored as a name. -/
theorem faithful {key : String} (other : key ≠ "name") :
    Faithful (fun item => item.child.index < NodeId.limit) (Declares ["name", key]) (encode key)
      (decode? key) where
  reads item fits := by
    have child := NodeId.faithful.reads item.child fits
    simp [encode, decode?, byName, field?, text?, List.lookup_cons, beq_eq_false_iff_ne.mpr other, child]
  formed item := ⟨_, rfl, .refl _⟩
  writes {d item} read declares := by
    simp only [decode?, declares.byName, Option.bind_eq_bind, Option.pure_def, Option.bind_eq_some_iff,
      Option.some.injEq] at read
    obtain ⟨v, there, label, found, v', there', child, found', rfl⟩ := read
    refine declares.reorder (by simp [Ne.symm other]) rfl fun name v mem u given => ?_
    obtain ⟨rfl, rfl⟩ | ⟨rfl, rfl⟩ : name = "name" ∧ v = .text label ∨
        name = key ∧ v = child.encode := by simpa using mem
    · cases there.symm.trans given
      exact text_faithful.writes found trivial
    · cases there'.symm.trans given
      exact NodeId.faithful.writes found' trivial

end Labelled

namespace EndpointDetails

/-- Exactly the declared fields, with the kind as a word. -/
def Form (d : Datum) : Prop :=
  d.Declares ["kind", "sample_types", "array_size"] ∧ ∀ v, d.field? "kind" = some v → v.IsText

theorem faithful :
    Faithful (fun e => (∀ id ∈ e.sampleTypes, id.index < NodeId.limit) ∧
      ∀ id ∈ e.arraySize, id.index < NodeId.limit) Form encode decode? where
  reads e fits := by
    have kind := EndpointKind.named.faithful.reads e.kind trivial
    have types := NodeId.faithful.list.reads e.sampleTypes fits.1
    have size := NodeId.option_faithful.reads e.arraySize fits.2
    simp [encode, decode?, byName, field?, optionalField?, List.lookup_cons, kind, types, size]
  formed e := by
    refine ⟨⟨_, rfl, .refl _⟩, fun v given => ?_⟩
    cases given
    exact EndpointKind.named.faithful.formed e.kind
  writes {d e} read formed := by
    obtain ⟨declares, word⟩ := formed
    simp only [decode?, declares.byName, Option.bind_eq_bind, Option.pure_def, Option.bind_eq_some_iff,
      Option.some.injEq] at read
    obtain ⟨v, there, kind, found, v', there', types, found', size, found'', rfl⟩ := read
    refine declares.reorder (by decide) rfl fun name v mem u given => ?_
    obtain ⟨rfl, rfl⟩ | ⟨rfl, rfl⟩ | ⟨rfl, rfl⟩ : name = "kind" ∧ v = Named.encode kind ∨
        name = "sample_types" ∧ v = .list (types.map NodeId.encode) ∨
        name = "array_size" ∧ v = ofOption NodeId.encode size := by simpa using mem
    · cases there.symm.trans given
      exact EndpointKind.named.faithful.writes found (word _ there)
    · cases there'.symm.trans given
      exact NodeId.faithful.list.writes found' fun _ _ _ _ => trivial
    · rw [optionalField?_of_given given] at found''
      exact NodeId.option_faithful.writes found'' trivial

end EndpointDetails

namespace PathSection

theorem faithful :
    Faithful (fun s => ∀ id ∈ s.index, id.index < NodeId.limit) (Declares ["name", "index"]) encode
      decode? where
  reads s fits := by
    have index := NodeId.option_faithful.reads s.index fits
    simp [encode, decode?, byName, field?, text?, optionalField?, List.lookup_cons, index]
  formed s := ⟨_, rfl, .refl _⟩
  writes {d s} read declares := by
    simp only [decode?, declares.byName, Option.bind_eq_bind, Option.pure_def, Option.bind_eq_some_iff,
      Option.some.injEq] at read
    obtain ⟨v, there, label, found, index, found', rfl⟩ := read
    refine declares.reorder (by decide) rfl fun name v mem u given => ?_
    obtain ⟨rfl, rfl⟩ | ⟨rfl, rfl⟩ : name = "name" ∧ v = .text label ∨
        name = "index" ∧ v = ofOption NodeId.encode index := by simpa using mem
    · cases there.symm.trans given
      exact text_faithful.writes found trivial
    · rw [optionalField?_of_given given] at found'
      exact NodeId.option_faithful.writes found' trivial

end PathSection

namespace FieldType

def SectionsForm (d : Datum) : Prop :=
  d.Declares ["sections"] ∧ ∀ v, d.field? "sections" = some v → v.Items (Declares ["name", "index"])

theorem sections_faithful :
    Faithful (fun sections => ∀ s ∈ sections, ∀ id ∈ s.index, id.index < NodeId.limit) SectionsForm
      (fun sections => .record [("sections", .list (sections.map PathSection.encode))])
      (fun d => ((d.byName ["sections"]).field? "sections").bind (listOf? PathSection.decode?)) where
  reads sections fits := PathSection.faithful.list.reads sections fits
  formed sections := by
    refine ⟨⟨_, rfl, .refl _⟩, fun v given => ?_⟩
    cases given
    exact PathSection.faithful.list.formed sections
  writes {d sections} read formed := by
    obtain ⟨declares, items⟩ := formed
    rw [declares.byName] at read
    obtain ⟨v, there, found⟩ := Option.bind_eq_some_iff.mp read
    refine declares.reorder (by decide) rfl fun name v mem u given => ?_
    obtain ⟨rfl, rfl⟩ : name = "sections" ∧ v = .list (sections.map PathSection.encode) := by
      simpa using mem
    cases there.symm.trans given
    exact PathSection.faithful.list.writes found (items _ there)

/-- Data that give exactly the declared fields: records with just their fields, and words by their
names. -/
def Form : FieldType → Datum → Prop
  | word _, d => d.IsText
  | connectionEnd, d => d.Declares ["processor", "endpoint"]
  | labelled key, d => d.Items (Declares ["name", key])
  | details, d => d = .null ∨ EndpointDetails.Form d
  | childPath, d => d = .null ∨ SectionsForm d
  | _, _ => True

/-- All handles that a field stores, links included. -/
def handles : (ty : FieldType) → ty.Val → List NodeId
  | link _, id => [id]
  | ty, v => (ty.children v).flatten.filterMap id

/-- Labelled children are not stored under the name of their label. -/
def Keyed : FieldType → Prop
  | labelled key => key ≠ "name"
  | _ => True

theorem faithful (ty : FieldType) (keyed : ty.Keyed) :
    Faithful (fun v => ∀ id ∈ ty.handles v, id.index < NodeId.limit) ty.Form ty.encode ty.decode? := by
  cases ty with
  | text => exact text_faithful.imp (fun _ _ => trivial) fun _ => Iff.rfl
  | flag => exact flag_faithful.imp (fun _ _ => trivial) fun _ => Iff.rfl
  | path => exact text_faithful.list.imp (fun _ _ _ _ => trivial) fun _ => by simp [Items, Form]
  | literal => exact Literal.faithful.imp (fun _ _ => trivial) fun _ => Iff.rfl
  | word v => exact (Vocabulary.lawful v).faithful.imp (fun _ _ => trivial) fun _ => Iff.rfl
  | connectionEnd => exact ConnectionEnd.faithful.imp (fun _ _ => trivial) fun _ => Iff.rfl
  | link c => exact NodeId.faithful.imp (fun _ fits => fits _ (by simp [handles])) fun _ => Iff.rfl
  | child c =>
    exact NodeId.faithful.imp (fun _ fits => fits _ (by simp [handles, children])) fun _ => Iff.rfl
  | optional c =>
    refine NodeId.option_faithful.imp (fun id? fits id here => ?_) fun _ => Iff.rfl
    cases here
    exact fits id (by simp [handles, children])
  | sequence c =>
    exact NodeId.faithful.list.imp (fun _ fits => by simpa [handles, children] using fits)
      fun _ => by simp [Items, Form]
  | labelled key =>
    exact (Labelled.faithful keyed).list.imp (fun _ fits => by simpa [handles, children] using fits)
      fun _ => Iff.rfl
  | details =>
    have optional := EndpointDetails.faithful.option (by simp [EndpointDetails.encode])
    refine optional.imp (fun d? fits d here => ?_) fun _ => Iff.rfl
    cases here
    refine ⟨fun id mem => fits id ?_, fun id here => fits id ?_⟩
    · simp [handles, children, mem]
    · simp [handles, children, Option.mem_def.mp here]
  | childPath =>
    refine (sections_faithful.option (by simp)).imp (fun s? fits sections here s mem id there => ?_)
      fun _ => Iff.rfl
    cases here
    refine fits id ?_
    simp only [handles, children, List.flatten_singleton, List.mem_filterMap, List.mem_map]
    exact ⟨s.index, ⟨s, mem, rfl⟩, there⟩

end FieldType

namespace Record

def handles : (fields : List Field) → Record fields → List NodeId
  | [], _ => []
  | f :: fields, (v, r) => f.type.handles v ++ handles fields r

theorem map_fst_entries : (fields : List Field) → (r : Record fields) →
    (entries fields r).map Prod.fst = fields.map Field.name
  | [], _ => rfl
  | f :: fields, (_, r) => congrArg (f.name :: ·) (map_fst_entries fields r)

theorem exists_entry : (fields : List Field) → (r : Record fields) → ∀ f ∈ fields,
    ∃ v, (f.name, f.type.encode v) ∈ entries fields r
  | f :: fields, (v, r), f', mem => by
    rcases List.mem_cons.mp mem with rfl | later
    · exact ⟨v, List.mem_cons_self⟩
    · obtain ⟨v', there⟩ := exists_entry fields r f' later
      exact ⟨v', List.mem_cons_of_mem _ there⟩

theorem ofDatum?_of_given {d : Datum} : (fields : List Field) → (r : Record fields) →
    (∀ f ∈ fields, f.type.Keyed) → (∀ id ∈ handles fields r, id.index < NodeId.limit) →
    (∀ name v, (name, v) ∈ entries fields r → d.field? name = some v) → ofDatum? d fields = some r
  | [], _, _, _, _ => rfl
  | f :: fields, (v, r), keyed, fits, given => by
    obtain ⟨first, later⟩ := List.forall_mem_append.mp fits
    have value := (f.type.faithful (keyed f List.mem_cons_self)).reads v first
    have rest := ofDatum?_of_given fields r (fun f mem => keyed f (List.mem_cons_of_mem _ mem)) later
      fun name v mem => given name v (List.mem_cons_of_mem _ mem)
    simp [ofDatum?, given _ _ List.mem_cons_self, value, rest]

/-- Data of the right form are what is written of the fields that are read from them. -/
theorem reorder_of_ofDatum? {d : Datum} : (fields : List Field) → {r : Record fields} →
    (∀ f ∈ fields, f.type.Keyed) → (∀ f ∈ fields, ∃ u, d.field? f.name = some u ∧ f.type.Form u) →
    ofDatum? d fields = some r →
    ∀ name v, (name, v) ∈ entries fields r → ∀ u, d.field? name = some u → u.Reorder v
  | [], _, _, _, _, _, _, mem, _, _ => nomatch mem
  | f :: fields, r, keyed, forms, read, name, v, mem, u, given => by
    obtain ⟨⟨u', there, form⟩, later⟩ := List.forall_mem_cons.mp forms
    obtain ⟨keyed, keyed'⟩ := List.forall_mem_cons.mp keyed
    simp only [ofDatum?, there, Option.bind_eq_bind, Option.pure_def, Option.bind_eq_some_iff,
      Option.some.injEq] at read
    obtain ⟨first, found, rest, more, rfl⟩ := read
    rcases List.mem_cons.mp mem with here | mem
    · cases here
      cases there.symm.trans given
      exact (f.type.faithful keyed).writes found form
    · exact reorder_of_ofDatum? fields keyed' later more name v mem u given

/-- A record of exactly these fields, each in its form. -/
def Form (fields : List Field) (d : Datum) : Prop :=
  fields = [] ∨
    d.Declares (fields.map Field.name) ∧ ∀ f ∈ fields, ∀ u, d.field? f.name = some u → f.type.Form u

theorem faithful (fields : List Field) (nodup : (fields.map Field.name).Nodup)
    (keyed : ∀ f ∈ fields, f.type.Keyed) :
    Faithful (fun r => ∀ id ∈ handles fields r, id.index < NodeId.limit) (Form fields) (encode fields)
      (decode? fields) := by
  cases fields with
  | nil =>
    refine ⟨fun r _ => rfl, fun r => .inl rfl, fun {d r} read _ => ?_⟩
    cases d with
    | null => exact .refl _
    | _ => cases read
  | cons f fields =>
    have given : ∀ (r : Record (f :: fields)) name v, (name, v) ∈ entries (f :: fields) r →
        (Datum.record (entries (f :: fields) r)).field? name = some v := by
      intro r name v mem
      exact lookup_of_mem (by rwa [map_fst_entries]) mem
    refine ⟨fun r fits => ?_, fun r => .inr ⟨⟨_, rfl, ?_⟩, fun f' mem u there => ?_⟩, ?_⟩
    · exact ofDatum?_of_given _ r keyed fits (given r)
    · rw [map_fst_entries]
    · obtain ⟨v, there'⟩ := exists_entry _ r f' mem
      cases (given r _ _ there').symm.trans there
      exact (f'.type.faithful (keyed f' mem)).formed v
    · intro d r read formed
      obtain ⟨declares, forms⟩ := formed.resolve_left (List.cons_ne_nil _ _)
      have all : ∀ f' ∈ f :: fields, ∃ u, d.field? f'.name = some u ∧ f'.type.Form u := by
        intro f' mem
        obtain ⟨u, there⟩ := declares.field (List.mem_map_of_mem mem)
        exact ⟨u, there, forms f' mem u there⟩
      obtain ⟨found, rfl, -⟩ := id declares
      exact declares.reorder nodup (map_fst_entries _ r) (reorder_of_ofDatum? _ keyed all read)

end Record

namespace Tag

theorem nodup_names (t : Tag) : (t.fields.map Field.name).Nodup := by
  cases t <;> decide

theorem fields_keyed (t : Tag) : ∀ f ∈ t.fields, f.type.Keyed := by
  cases t <;> simp [fields, FieldType.Keyed]

end Tag

namespace Node

def handles (n : Node) : List NodeId :=
  n.record.handles n.tag.fields

/-- A node with its span, and with exactly the fields of its variant. -/
def Form (d : Datum) : Prop :=
  ∃ name fields span, d = .list [.text name, fields, span] ∧
    ∀ t : Tag, Named.ofName? name = some t → Record.Form t.fields fields

theorem record_faithful (t : Tag) :
    Faithful (fun r => ∀ id ∈ Record.handles t.fields r, id.index < NodeId.limit) (Record.Form t.fields)
      (Record.encode t.fields) (Record.decode? t.fields) :=
  Record.faithful t.fields t.nodup_names t.fields_keyed

/-- Named fields are not taken for a list of them. -/
theorem byName_encode (fields : List Field) (r : Record fields) (names : List String) :
    (r.encode fields).byName names = r.encode fields := by
  cases fields <;> rfl

theorem byName_of_form {fields : List Field} {names : List String} {d : Datum} {r : Record fields}
    (formed : Record.Form fields d) (read : Record.decode? fields (d.byName names) = some r) :
    d.byName names = d := by
  rcases formed with rfl | ⟨declares, -⟩
  · cases d with
    | list items =>
      rw [byName] at read
      split at read <;> cases read
    | _ => rfl
  · exact declares.byName names

theorem faithful :
    Faithful (fun n : Node => ∀ id ∈ n.handles, id.index < NodeId.limit) Form encode decode? where
  reads n fits := by
    have tag : Named.decode? (.text n.tag.name) = some n.tag := Tag.named n.tag
    have record := (record_faithful n.tag).reads n.record fits
    rw [encode, encodeFields, decode?, Span.decode?_encode]
    simp [decodeParts?, tag, byName_encode, record]
  formed n := by
    refine ⟨_, _, _, rfl, fun t named => ?_⟩
    cases (Tag.named n.tag).symm.trans named
    exact (record_faithful n.tag).formed n.record
  writes {d n} read formed := by
    obtain ⟨name, fields, span, rfl, formed⟩ := formed
    simp only [decode?, decodeParts?, Option.bind_eq_bind, Option.pure_def, Option.bind_eq_some_iff,
      Option.some.injEq] at read
    obtain ⟨s, found, t, named, record, there, rfl⟩ := read
    have form := formed t named
    have same := byName_of_form form there
    rw [same] at there
    rw [Span.eq_encode_of_decode? found, ← Named.name_of_ofName? named]
    exact .items (.cons (.refl _) (.cons ((record_faithful t).writes there form) (.cons (.refl _) .nil)))

end Node

theorem Arena.decode?_encode {a : Arena}
    (fits : ∀ n ∈ a.nodes, ∀ id ∈ n.handles, id.index < NodeId.limit) :
    Arena.decode? a.encode = some a := by
  have nodes := Node.faithful.list.reads a.nodes.toList (by simpa using fits)
  rw [decode?, encode, nodes]
  simp [ofList]

/-- What is written of nodes and arenas is read as what it was, and data that give exactly the declared
fields are written as they were read. -/
theorem snapshots_round_trip :
    (∀ n : Node, (∀ id ∈ n.handles, id.index < NodeId.limit) →
      Node.decode? n.encode = some n ∧ Node.Form n.encode) ∧
    (∀ a : Arena, (∀ n ∈ a.nodes, ∀ id ∈ n.handles, id.index < NodeId.limit) →
      Arena.decode? a.encode = some a) ∧
    ∀ d n, Node.decode? d = some n → Node.Form d → d.Reorder n.encode :=
  ⟨fun n fits => ⟨Node.faithful.reads n fits, Node.faithful.formed n⟩,
    fun _ fits => Arena.decode?_encode fits, fun _ _ read formed => Node.faithful.writes read formed⟩

def endpointNode : Node :=
  ⟨.endpointDeclaration, ("in", .input, some ⟨.stream, [⟨1⟩, ⟨4294967295⟩], none⟩,
    some [⟨"a", some ⟨2⟩⟩, ⟨"b", none⟩], none, ()), ⟨3, 1⟩⟩

def endpointDatum : Datum :=
  .list [.text "EndpointDeclaration",
    .record [("annotation", .null), ("child_path", .record [("sections", .list [
        .record [("index", .nat 2), ("name", .text "a")], .record [("name", .text "b"), ("index", .null)]])]),
      ("details", .record [("sample_types", .list [.nat 1, .nat 4294967295]), ("array_size", .null),
        ("kind", .text "Stream")]),
      ("direction", .text "Input"), ("name", .text "in")],
    .list [.nat 3, .nat 1]]

theorem endpointDatum_form : Node.Form endpointDatum := by
  refine ⟨_, _, _, rfl, fun t named => ?_⟩
  cases named
  refine .inr ⟨⟨_, rfl, by decide⟩, fun f mem u given => ?_⟩
  obtain rfl | rfl | rfl | rfl | rfl : f = ⟨"name", .text⟩ ∨ f = ⟨"direction", .word .endpointDirection⟩ ∨
      f = ⟨"details", .details⟩ ∨ f = ⟨"child_path", .childPath⟩ ∨
      f = ⟨"annotation", .optional .object⟩ := by simpa [Tag.fields] using mem
  all_goals cases given
  · trivial
  · exact ⟨_, rfl⟩
  · refine .inr ⟨⟨_, rfl, by decide⟩, fun v given => ?_⟩
    cases given
    exact ⟨_, rfl⟩
  · refine .inr ⟨⟨_, rfl, by decide⟩, fun v given => ?_⟩
    cases given
    rintro _ ⟨⟩ x mem
    obtain rfl | rfl := List.mem_pair.mp mem
    all_goals exact ⟨_, rfl, by decide⟩
  · trivial

theorem snapshots_round_trip_endpointNode :
    Node.decode? endpointNode.encode = some endpointNode ∧
      Arena.decode? (Arena.ofList [endpointNode, ⟨.constant, (.float 0xfff8000000000001, ()), .dummy⟩]).encode =
        some (.ofList [endpointNode, ⟨.constant, (.float 0xfff8000000000001, ()), .dummy⟩]) ∧
      endpointDatum.Reorder endpointNode.encode := by
  obtain ⟨nodes, arenas, data⟩ := snapshots_round_trip
  exact ⟨(nodes endpointNode (by decide)).1, arenas _ (by decide), data _ _ rfl endpointDatum_form⟩

end ProgramTree
