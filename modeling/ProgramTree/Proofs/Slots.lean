import Mathlib.Logic.Function.Basic
import ProgramTree.World

/-!
The child slots of a node, variant by variant. `Node.table` is the table of children: which fields of a
variant hold children, in which order, and which of them are sequences. It is written out field by field,
with the names of the fields, and does not rest on the lanes by which the engines find their way;
`table_eq` says that the two agree, name by name.
`Node.mapChildren` puts another node in every occupied slot and leaves all else alone, and filling a
single place is a case of it (`Node.fill_mapChildren`).
-/

namespace ProgramTree

/-- The children of a node in one lane, in order. Empty places are left out. -/
structure Row where
  lane : Lane
  held : List Handle
  deriving DecidableEq, Repr

namespace Row

def required (c : Category) (id : NodeId) : Row :=
  ⟨⟨c, .one⟩, [⟨c, id⟩]⟩

def optional (c : Category) (id? : Option NodeId) : Row :=
  ⟨⟨c, .one⟩, id?.toList.map (Handle.mk c)⟩

def sequence (c : Category) (ids : List NodeId) : Row :=
  ⟨⟨c, .many⟩, ids.map (Handle.mk c)⟩

end Row

namespace Node

open Row

/-- The table of children, each row under the name of its field. Links are not children, and an absent
optional adds nothing. -/
def table (n : Node) : List (String × Row) :=
  match n.tag, n.record with
  | .graph, (_, endpoints, instances, aliases, connections, constants, _) =>
    [("endpoints", sequence .object endpoints), ("instances", sequence .object instances),
     ("aliases", sequence .object aliases), ("connections", sequence .object connections),
     ("constants", sequence .expression constants)]
  | .processor, (_, endpoints, structures, usings, stateVariables, functions, _) =>
    [("endpoints", sequence .object endpoints), ("structures", sequence .object structures),
     ("usings", sequence .object usings), ("state_variables", sequence .expression stateVariables),
     ("functions", sequence .object functions)]
  | .nameSpace, (_, subModules, structures, usings, constants, functions, _) =>
    [("sub_modules", sequence .module subModules), ("structures", sequence .object structures),
     ("usings", sequence .object usings), ("constants", sequence .expression constants),
     ("functions", sequence .object functions)]
  | .block, (statements, _) => [("statements", sequence .statement statements)]
  | .expressionStatement, (expression, _) => [("expression", required .expression expression)]
  | .binaryOperator, (_, lhs, rhs, _) =>
    [("lhs", required .expression lhs), ("rhs", required .expression rhs)]
  | .assignment, (target, newValue, _) =>
    [("target", required .expression target), ("new_value", required .expression newValue)]
  | .subscriptWithChevrons, (lhs, rhs, _) =>
    [("lhs", required .expression lhs), ("rhs", required .expression rhs)]
  | .writeToEndpoint, (target, value, _) =>
    [("target", required .expression target), ("value", required .expression value)]
  | .ternaryOp, (condition, trueBranch, falseBranch, _) =>
    [("condition", required .expression condition),
     ("true_branch", required .expression trueBranch),
     ("false_branch", required .expression falseBranch)]
  | .unaryOperator, (_, source, _) => [("source", required .expression source)]
  | .typeCast, (_, source, _) => [("source", required .expression source)]
  | .preOrPostIncOrDec, (target, _) => [("target", required .expression target)]
  | .typeMetaFunction, (_, source, _) => [("source", required .expression source)]
  | .structMemberRef, (object, _) => [("object", required .expression object)]
  | .dotOperator, (lhs, _) => [("lhs", required .expression lhs)]
  | .arrayElementRef, (object, startIndex, endIndex, _) =>
    [("object", required .expression object), ("start_index", required .expression startIndex),
     ("end_index", optional .expression endIndex)]
  | .subscriptWithBrackets, (lhs, rhs, _) =>
    [("lhs", required .expression lhs), ("rhs", optional .expression rhs)]
  | .commaSeparatedList, (items, _) => [("items", sequence .expression items)]
  | .functionCall, (_, arguments, _) => [("arguments", optional .expression arguments)]
  | .callOrCast, (arguments, nameOrType, _) =>
    [("arguments", optional .expression arguments),
     ("name_or_type", required .expression nameOrType)]
  | .variableDeclaration, (_, declaredType, initialValue, annotation, _) =>
    [("declared_type", optional .expression declaredType),
     ("initial_value", optional .expression initialValue),
     ("annotation", optional .object annotation)]
  | .ifStatement, (condition, trueBranch, falseBranch, _) =>
    [("condition", required .expression condition), ("true_branch", required .statement trueBranch),
     ("false_branch", optional .statement falseBranch)]
  | .loopStatement, (iterator, body, condition, numIterations, _) =>
    [("iterator", optional .statement iterator), ("body", optional .statement body),
     ("condition", optional .expression condition),
     ("num_iterations", optional .expression numIterations)]
  | .returnStatement, (value, _) => [("value", optional .expression value)]
  | .function, (_, returnType, parameters, block, _) =>
    [("return_type", required .expression returnType),
     ("parameters", sequence .expression parameters), ("block", optional .statement block)]
  | .structDeclaration, (_, members, _) =>
    [("members", sequence .expression (members.map Labelled.child))]
  | .usingDeclaration, (_, targetType, _) => [("target_type", optional .expression targetType)]
  | .endpointDeclaration, (_, _, details, childPath, annotation, _) =>
    [("details", sequence .expression (details.elim [] EndpointDetails.sampleTypes)),
     ("details", optional .expression (details.bind EndpointDetails.arraySize)),
     ("child_path", sequence .expression ((childPath.getD []).filterMap PathSection.index)),
     ("annotation", optional .object annotation)]
  | .connection, (_, _, _, delayLength, _) => [("delay_length", optional .expression delayLength)]
  | .processorInstance, (_, target, arguments, clockMultiplier, clockDivider, _) =>
    [("target_processor", required .expression target),
     ("specialisation_args", sequence .expression arguments),
     ("clock_multiplier", optional .expression clockMultiplier),
     ("clock_divider", optional .expression clockDivider)]
  | .staticAssertion, (condition, _) => [("condition", required .expression condition)]
  | .annotationObject, (properties, _) =>
    [("properties", sequence .expression (properties.map Labelled.child))]
  | .constant, _ | .variableRef, _ | .qualifiedIdentifier, _ | .concreteType, _
  | .inputEndpointRef, _ | .outputEndpointRef, _ | .processorRef, _ | .processorProperty, _
  | .advanceClock, _ | .breakStatement, _ | .continueStatement, _ | .noopStatement, _
  | .processorAliasDeclaration, _ => []

def rows (n : Node) : List Row :=
  n.table.map Prod.snd

/-- The children of a node in the order of the table. -/
def children (n : Node) : List Handle :=
  n.rows.flatMap Row.held

end Node

namespace Lane

/-- The occupants of the places of a lane. -/
def held (lane : Lane) (places : List (Option NodeId)) : List Handle :=
  places.filterMap fun place => place.map (Handle.mk lane.category)

def row (lane : Lane) (places : List (Option NodeId)) : Row :=
  ⟨lane, lane.held places⟩

def mapPlaces (f : Handle → NodeId) (lane : Lane) (places : List (Option NodeId)) :
    List (Option NodeId) :=
  places.map fun place => place.map fun id => f ⟨lane.category, id⟩

end Lane

theorem held_map_some (lane : Lane) (ids : List NodeId) :
    lane.held (ids.map some) = ids.map (Handle.mk lane.category) := by
  rw [Lane.held, List.filterMap_map]
  exact congrFun (List.filterMap_eq_map (f := Handle.mk lane.category)) ids

theorem held_singleton (lane : Lane) (place : Option NodeId) :
    lane.held [place] = place.toList.map (Handle.mk lane.category) := by
  cases place <;> rfl

namespace FieldType

/-- The part of the table that belongs to one field. -/
def rows : (ty : FieldType) → ty.Val → List Row
  | child c, id => [.required c id]
  | optional c, id? => [.optional c id?]
  | sequence c, ids => [.sequence c ids]
  | labelled _, items => [.sequence .expression (items.map Labelled.child)]
  | details, d? =>
    [.sequence .expression (d?.elim [] EndpointDetails.sampleTypes),
     .optional .expression (d?.bind EndpointDetails.arraySize)]
  | childPath, sections => [.sequence .expression ((sections.getD []).filterMap PathSection.index)]
  | text, _ | flag, _ | path, _ | literal, _ | word _, _ | connectionEnd, _ | link _, _ => []

theorem zipWith_row (ty : FieldType) (v : ty.Val) :
    List.zipWith Lane.row ty.lanes (ty.children v) = ty.rows v := by
  cases ty with
  | sequence c =>
    simp [lanes, children, rows, Lane.row, Row.sequence, held_map_some]
  | optional c =>
    simp [lanes, children, rows, Lane.row, Row.optional, held_singleton]
  | labelled key =>
    simp [lanes, children, rows, Lane.row, Row.sequence, Lane.held, List.filterMap_map,
      Function.comp_def]
  | details =>
    cases v with
    | none => rfl
    | some d =>
      simp [lanes, children, rows, Lane.row, Row.sequence, Row.optional, held_map_some,
        held_singleton]
  | childPath =>
    cases v with
    | none => rfl
    | some sections =>
      have held : Lane.held ⟨.expression, .many⟩ (sections.map PathSection.index) =
          (sections.filterMap PathSection.index).map (Handle.mk .expression) := by
        rw [Lane.held, List.filterMap_map, List.map_filterMap]
        rfl
      exact congrArg (fun held => [Row.mk ⟨.expression, .many⟩ held]) held
  | _ => rfl

end FieldType

/-- The lanes of some fields, each under the name of its field. -/
def namedLanes (fields : List Field) : List (String × Lane) :=
  fields.flatMap fun f => f.type.lanes.map (Prod.mk f.name)

def Lane.namedRow (lane : String × Lane) (places : List (Option NodeId)) : String × Row :=
  (lane.1, lane.2.row places)

namespace Record

def table : (fields : List Field) → Record fields → List (String × Row)
  | [], _ => []
  | f :: fields, (v, r) => (f.type.rows v).map (Prod.mk f.name) ++ table fields r

theorem table_eq : (fields : List Field) → (r : Record fields) →
    table fields r = List.zipWith Lane.namedRow (namedLanes fields) (children fields r)
  | [], _ => rfl
  | f :: fields, (v, r) => by
    have aligned : (f.type.lanes.map (Prod.mk f.name)).length = (f.type.children v).length := by
      rw [List.length_map, FieldType.length_children]
    have first : (f.type.rows v).map (Prod.mk f.name) =
        List.zipWith Lane.namedRow (f.type.lanes.map (Prod.mk f.name)) (f.type.children v) := by
      rw [← FieldType.zipWith_row, List.map_zipWith, List.zipWith_map_left]
      rfl
    rw [table, children, first, table_eq fields r, ← List.zipWith_append aligned]
    rfl

end Record

namespace Node

/-- The table agrees with the lanes that the engines walk, and with the names of their fields. -/
theorem table_eq (n : Node) :
    n.table = List.zipWith Lane.namedRow (namedLanes n.tag.fields) (n.record.children n.tag.fields) := by
  rw [← Record.table_eq]
  obtain ⟨tag, record, span⟩ := n
  cases tag <;> rfl

theorem rows_eq (n : Node) :
    n.rows = List.zipWith Lane.row n.tag.lanes (n.record.children n.tag.fields) := by
  have lanes : n.tag.lanes = (namedLanes n.tag.fields).map Prod.snd := by
    rw [namedLanes, List.map_flatMap]
    refine congrArg (n.tag.fields.flatMap ·) (funext fun f => ?_)
    rw [List.map_map]
    exact (List.map_id _).symm
  rw [rows, table_eq, List.map_zipWith, lanes, List.zipWith_map_left]
  rfl

end Node

namespace FieldType

/-- Puts `f h` in place of every child `h`. -/
def mapChildren (f : Handle → NodeId) : (ty : FieldType) → ty.Val → ty.Val
  | child c, id => f ⟨c, id⟩
  | optional c, id? => id?.map fun id => f ⟨c, id⟩
  | sequence c, ids => ids.map fun id => f ⟨c, id⟩
  | labelled _, items => items.map fun item => { item with child := f ⟨.expression, item.child⟩ }
  | details, d? => d?.map fun d =>
      { d with
        sampleTypes := d.sampleTypes.map fun id => f ⟨.expression, id⟩
        arraySize := d.arraySize.map fun id => f ⟨.expression, id⟩ }
  | childPath, sections? => sections?.map fun sections => sections.map fun s =>
      { s with index := s.index.map fun id => f ⟨.expression, id⟩ }
  | text, v | flag, v | path, v | literal, v | word _, v | connectionEnd, v | link _, v => v

theorem children_mapChildren (f : Handle → NodeId) (ty : FieldType) (v : ty.Val) :
    ty.children (ty.mapChildren f v) =
      List.zipWith (Lane.mapPlaces f) ty.lanes (ty.children v) := by
  cases ty with
  | details | childPath =>
    cases v <;> simp [mapChildren, children, lanes, Lane.mapPlaces, Function.comp_def]
  | _ => simp [mapChildren, children, lanes, Lane.mapPlaces, Function.comp_def]

theorem mapChildren_mapChildren (f g : Handle → NodeId) (ty : FieldType) (v : ty.Val) :
    ty.mapChildren g (ty.mapChildren f v) = ty.mapChildren (fun h => g ⟨h.category, f h⟩) v := by
  cases ty with
  | details | childPath => cases v <;> simp [mapChildren, Function.comp_def]
  | _ => simp [mapChildren, Function.comp_def]

/-- A value with its children struck out. -/
def erase (ty : FieldType) (v : ty.Val) : ty.Val :=
  ty.mapChildren (fun _ => ⟨0⟩) v

theorem map_modify_of_eq {α β : Type} {f : α → β} {g : α → α} : (l : List α) → (i : Nat) →
    (∀ a, l[i]? = some a → f (g a) = f a) → (l.modify i g).map f = l.map f
  | [], _, _ => by simp
  | a :: l, 0, h => by simp [h a rfl]
  | a :: l, i + 1, h => by simpa using map_modify_of_eq l i fun b atI => h b (by simpa using atI)

/-- Filling an occupied place changes no more than the child there. -/
theorem erase_fill {ty : FieldType} {v : ty.Val} {k i : Nat} {old : NodeId}
    (occupied : ty.place? v k i = some (some old)) (id : NodeId) :
    ty.erase (ty.fill v k i id) = ty.erase v := by
  cases ty with
  | labelled key =>
    rcases k with _ | k
    · exact map_modify_of_eq v i fun _ _ => rfl
    · rfl
  | details =>
    cases v with
    | none => rfl
    | some d =>
      rcases k with _ | _ | k
      · simp [erase, mapChildren, fill, List.map_const']
      · rcases i with _ | i
        · have size : d.arraySize = some old := by simpa [place?] using occupied
          simp [erase, mapChildren, fill, size]
        · rfl
      · rfl
  | childPath =>
    cases v with
    | none => rfl
    | some sections =>
      rcases k with _ | k
      · refine congrArg some (map_modify_of_eq sections i fun s atI => ?_)
        have index : s.index = some old := by simpa [place?, atI] using occupied
        simp [index]
      · rfl
  | optional c =>
    rcases k with _ | k <;> rcases i with _ | i
    · have here : v = some old := by simpa [place?] using occupied
      simp [erase, mapChildren, fill, here]
    all_goals rfl
  | _ =>
    rcases k with _ | k <;> rcases i with _ | i <;> simp [erase, mapChildren, fill, List.map_const']

theorem eq_of_map_eq {α β γ : Type} {f : α → β} {g : α → γ}
    (pair : ∀ a b, f a = f b → g a = g b → a = b) :
    {l m : List α} → l.map f = m.map f → l.map g = m.map g → l = m
  | [], [], _, _ => rfl
  | [], _ :: _, h, _ => by simp at h
  | _ :: _, [], h, _ => by simp at h
  | a :: l, b :: m, h, h' => by
    simp only [List.map_cons, List.cons.injEq] at h h'
    rw [pair a b h.1 h'.1, eq_of_map_eq pair h.2 h'.2]

/-- A value is made up of its children and the rest. -/
theorem ext_children {ty : FieldType} {v v' : ty.Val} (same : ty.children v = ty.children v')
    (rest : ty.erase v = ty.erase v') : v = v' := by
  cases ty with
  | child c | optional c => simpa [children] using same
  | sequence c =>
    have ids : v.map some = v'.map some := by simpa [children] using same
    exact eq_of_map_eq (fun a b here _ => Option.some.inj here) ids ids
  | labelled key =>
    refine eq_of_map_eq (fun a b child rest => ?_) (List.cons.inj same).1 rest
    cases a
    cases b
    simp_all
  | details =>
    rcases v with _ | d <;> rcases v' with _ | d'
    · rfl
    · simp [erase, mapChildren] at rest
    · simp [erase, mapChildren] at rest
    · have samples : d.sampleTypes.map some = d'.sampleTypes.map some := (List.cons.inj same).1
      have types := eq_of_map_eq (fun a b here _ => Option.some.inj here) samples samples
      have size : d.arraySize = d'.arraySize := by
        simpa using (List.cons.inj (List.cons.inj same).2).1
      have kind : d.kind = d'.kind := by
        simpa [erase, mapChildren] using congrArg (Option.map EndpointDetails.kind) rest
      cases d
      cases d'
      simp_all
  | childPath =>
    rcases v with _ | sections <;> rcases v' with _ | sections'
    · rfl
    · simp [erase, mapChildren] at rest
    · simp [erase, mapChildren] at rest
    · refine congrArg some (eq_of_map_eq (fun a b index rest => ?_) (List.cons.inj same).1
        (Option.some.inj rest))
      cases a
      cases b
      simp_all
  | _ => exact rest

end FieldType

namespace Record

def mapChildren (g : Handle → NodeId) : (fields : List Field) → Record fields → Record fields
  | [], r => r
  | f :: fields, (v, r) => (f.type.mapChildren g v, mapChildren g fields r)

theorem children_mapChildren (g : Handle → NodeId) : (fields : List Field) → (r : Record fields) →
    children fields (mapChildren g fields r) =
      List.zipWith (Lane.mapPlaces g) (lanesOf fields) (children fields r)
  | [], _ => rfl
  | f :: fields, (v, r) => by
    have aligned := (FieldType.length_children f.type v).symm
    rw [mapChildren, children, children, FieldType.children_mapChildren,
      children_mapChildren g fields r, ← List.zipWith_append aligned]
    rfl

theorem mapChildren_mapChildren (g g' : Handle → NodeId) :
    (fields : List Field) → (r : Record fields) →
      mapChildren g' fields (mapChildren g fields r) =
        mapChildren (fun h => g' ⟨h.category, g h⟩) fields r
  | [], _ => rfl
  | f :: fields, (v, r) => by
    rw [mapChildren, mapChildren, mapChildren, FieldType.mapChildren_mapChildren,
      mapChildren_mapChildren g g' fields r]

def erase (fields : List Field) (r : Record fields) : Record fields :=
  mapChildren (fun _ => ⟨0⟩) fields r

theorem erase_fill : (fields : List Field) → (r : Record fields) → (k i : Nat) →
    {old : NodeId} → place? fields r k i = some (some old) → (id : NodeId) →
      erase fields (fill fields r k i id) = erase fields r
  | [], _, _, _, _, _, _ => rfl
  | f :: fields, (v, r), k, i, old, occupied, id => by
    rw [place?] at occupied
    rw [fill]
    split
    · rw [if_pos ‹_›] at occupied
      exact Prod.ext (FieldType.erase_fill occupied id) rfl
    · rw [if_neg ‹_›] at occupied
      exact Prod.ext rfl (erase_fill fields r _ i occupied id)

theorem ext_children : (fields : List Field) → {r r' : Record fields} →
    children fields r = children fields r' → erase fields r = erase fields r' → r = r'
  | [], _, _, _, _ => rfl
  | f :: fields, (v, r), (v', r'), same, rest => by
    have aligned : (f.type.children v).length = (f.type.children v').length := by
      rw [FieldType.length_children, FieldType.length_children]
    obtain ⟨first, others⟩ := List.append_inj same aligned
    have values := FieldType.ext_children first (congrArg Prod.fst rest)
    have records := ext_children fields others (congrArg Prod.snd rest)
    rw [values, records]

end Record

namespace Lane

variable {f g : Handle → NodeId} {lane : Lane} {places : List (Option NodeId)}

theorem held_mapPlaces (f : Handle → NodeId) (lane : Lane) (places : List (Option NodeId)) :
    lane.held (lane.mapPlaces f places) =
      (lane.held places).map fun h => ⟨h.category, f h⟩ := by
  induction places with
  | nil => rfl
  | cons place places ih => cases place <;> simpa [held, mapPlaces] using ih

theorem mapPlaces_congr (agree : ∀ h ∈ lane.held places, f h = g h) :
    lane.mapPlaces f places = lane.mapPlaces g places := by
  apply List.map_congr_left
  intro place there
  cases place with
  | none => rfl
  | some id => exact congrArg some (agree _ (List.mem_filterMap.mpr ⟨_, there, rfl⟩))

theorem zipWith_mapPlaces_congr : (lanes : List Lane) → (view : List (List (Option NodeId))) →
    (∀ h ∈ (List.zipWith row lanes view).flatMap Row.held, f h = g h) →
      List.zipWith (mapPlaces f) lanes view = List.zipWith (mapPlaces g) lanes view
  | [], _, _ => by simp
  | _ :: _, [], _ => by simp
  | lane :: lanes, places :: view, agree => by
    rw [List.zipWith_cons_cons, List.zipWith_cons_cons,
      mapPlaces_congr fun h mem => agree h (List.mem_append_left _ mem),
      zipWith_mapPlaces_congr lanes view fun h mem => agree h (List.mem_append_right _ mem)]

theorem zipWith_mapPlaces_node : (lanes : List Lane) → (view : List (List (Option NodeId))) →
    view.length = lanes.length → List.zipWith (mapPlaces Handle.node) lanes view = view
  | [], [], _ => rfl
  | lane :: lanes, places :: view, aligned => by
    rw [List.zipWith_cons_cons, zipWith_mapPlaces_node lanes view (Nat.succ.inj aligned)]
    simp [mapPlaces]

section Update

variable {h : Handle} {new : NodeId}

theorem update_agrees {hs : List Handle} (absent : h ∉ hs) (f : Handle → NodeId) (new : NodeId) :
    ∀ h' ∈ hs, f h' = Function.update f h new h' := by
  intro h' mem
  have other : h' ≠ h := by
    rintro rfl
    exact absent mem
  rw [Function.update_of_ne other]

theorem held_cons_some (lane : Lane) (id : NodeId) (places : List (Option NodeId)) :
    lane.held (some id :: places) = ⟨lane.category, id⟩ :: lane.held places := rfl

theorem mem_held (lane : Lane) {i : Nat} {id : NodeId} (there : places[i]? = some (some id)) :
    ⟨lane.category, id⟩ ∈ lane.held places :=
  List.mem_filterMap.mpr ⟨some id, List.mem_of_getElem? there, rfl⟩

/-- Setting the only place that holds a child is giving that child another answer. -/
theorem set_mapPlaces (f : Handle → NodeId) (lane : Lane) (new : NodeId) {id : NodeId} :
    (places : List (Option NodeId)) → (i : Nat) → places[i]? = some (some id) →
      (lane.held places).count ⟨lane.category, id⟩ ≤ 1 →
        (lane.mapPlaces f places).set i (some new) =
          lane.mapPlaces (Function.update f ⟨lane.category, id⟩ new) places
  | [], _, there, _ => by simp at there
  | place :: places, 0, there, once => by
    obtain rfl : place = some id := by simpa using there
    rw [held_cons_some, List.count_cons_self] at once
    have absent : ⟨lane.category, id⟩ ∉ lane.held places := List.count_eq_zero.mp (by omega)
    have others := mapPlaces_congr (update_agrees absent f new)
    simpa [mapPlaces] using others
  | place :: places, i + 1, there, once => by
    have later : places[i]? = some (some id) := by simpa using there
    have found := List.count_pos_iff.mpr (mem_held lane later)
    have split : lane.held (place :: places) = lane.held [place] ++ lane.held places := by
      rw [held, held, held, ← List.filterMap_append, List.singleton_append]
    rw [split, List.count_append] at once
    have absent : ⟨lane.category, id⟩ ∉ lane.held [place] := List.count_eq_zero.mp (by omega)
    have first := mapPlaces_congr (update_agrees absent f new)
    have others := set_mapPlaces f lane new places i later (by omega)
    simp only [mapPlaces, List.map_cons, List.map_nil, List.cons.injEq, and_true] at first others ⊢
    rw [List.set_cons_succ, first, others]

theorem mem_flatMap_held {lanes : List Lane} {view : List (List (Option NodeId))} {k i : Nat}
    {id : NodeId} (here : lanes[k]? = some lane) (shown : view[k]? = some places)
    (there : places[i]? = some (some id)) :
    ⟨lane.category, id⟩ ∈ (List.zipWith row lanes view).flatMap Row.held := by
  have atK : (List.zipWith row lanes view)[k]? = some (lane.row places) := by
    rw [List.getElem?_zipWith, here, shown]
  exact List.mem_flatMap.mpr ⟨_, List.mem_of_getElem? atK, mem_held lane there⟩

theorem modify_mapPlaces (f : Handle → NodeId) (new : NodeId) {lane : Lane} {id : NodeId} {i : Nat}
    {places : List (Option NodeId)} (there : places[i]? = some (some id)) :
    (lanes : List Lane) → (view : List (List (Option NodeId))) → (k : Nat) →
      lanes[k]? = some lane → view[k]? = some places →
        ((List.zipWith row lanes view).flatMap Row.held).count ⟨lane.category, id⟩ ≤ 1 →
          ((List.zipWith (mapPlaces f) lanes view).modify k fun places => places.set i (some new)) =
            List.zipWith (mapPlaces (Function.update f ⟨lane.category, id⟩ new)) lanes view
  | [], _, _, here, _, _ => by simp at here
  | _ :: _, [], _, _, here, _ => by simp at here
  | lane' :: lanes, places' :: view, 0, here, shown, once => by
    obtain rfl : lane' = lane := by simpa using here
    obtain rfl : places' = places := by simpa using shown
    rw [List.zipWith_cons_cons, List.flatMap_cons, List.count_append] at once
    have found := List.count_pos_iff.mpr (mem_held lane' there)
    have first := set_mapPlaces f lane' new places' i there (by simp only [row] at once; omega)
    have absent : ⟨lane'.category, id⟩ ∉ (List.zipWith row lanes view).flatMap Row.held :=
      List.count_eq_zero.mp (by simp only [row] at once ⊢; omega)
    have others := zipWith_mapPlaces_congr lanes view (update_agrees absent f new)
    rw [List.zipWith_cons_cons, List.zipWith_cons_cons, List.modify_zero_cons, first, others]
  | lane' :: lanes, places' :: view, k + 1, here, shown, once => by
    rw [List.getElem?_cons_succ] at here shown
    rw [List.zipWith_cons_cons, List.flatMap_cons, List.count_append] at once
    have found := List.count_pos_iff.mpr (mem_flatMap_held here shown there)
    have absent : ⟨lane.category, id⟩ ∉ lane'.held places' :=
      List.count_eq_zero.mp (by simp only [row] at once found; omega)
    have first := mapPlaces_congr (update_agrees absent f new)
    have others := modify_mapPlaces f new there lanes view k here shown (by omega)
    rw [List.zipWith_cons_cons, List.zipWith_cons_cons, List.modify_succ_cons, first, others]

end Update

end Lane

namespace Record

variable {fields : List Field} {k i : Nat} {lane : Lane} {id : NodeId}

theorem place?_mapChildren (f : Handle → NodeId) (r : Record fields)
    (here : (lanesOf fields)[k]? = some lane) (i : Nat) :
    place? fields (mapChildren f fields r) k i =
      (place? fields r k i).map fun place => place.map fun id => f ⟨lane.category, id⟩ := by
  rw [place?_eq, place?_eq, children_mapChildren, List.getElem?_zipWith, here]
  cases (children fields r)[k]? with
  | none => rfl
  | some places => simp [Lane.mapPlaces]

theorem fill_mapChildren (f : Handle → NodeId) {r : Record fields}
    (here : (lanesOf fields)[k]? = some lane) (there : place? fields r k i = some (some id))
    (once : ((List.zipWith Lane.row (lanesOf fields) (children fields r)).flatMap Row.held).count
      ⟨lane.category, id⟩ ≤ 1) (new : NodeId) :
    fill fields (mapChildren f fields r) k i new =
      mapChildren (Function.update f ⟨lane.category, id⟩ new) fields r := by
  apply ext_children
  · rw [place?_eq] at there
    obtain ⟨places, shown, there⟩ := Option.bind_eq_some_iff.mp there
    rw [children_fill, children_mapChildren, children_mapChildren]
    exact Lane.modify_mapPlaces f new there _ _ k here shown once
  · have occupied : place? fields (mapChildren f fields r) k i =
        some (some (f ⟨lane.category, id⟩)) := by
      rw [place?_mapChildren f r here, there]
      rfl
    rw [erase_fill _ _ k i occupied, erase, erase, mapChildren_mapChildren,
      mapChildren_mapChildren]

end Record

/-- Puts `f h` in place of every child `h` of a node. -/
def Node.mapChildren (f : Handle → NodeId) (n : Node) : Node :=
  ⟨n.tag, n.record.mapChildren f n.tag.fields, n.span⟩

def Row.map (f : Handle → NodeId) (row : Row) : Row :=
  ⟨row.lane, row.held.map fun h => ⟨h.category, f h⟩⟩

theorem Row.zipWith_row_mapPlaces (f : Handle → NodeId) :
    (lanes : List Lane) → (view : List (List (Option NodeId))) →
      List.zipWith Lane.row lanes (List.zipWith (Lane.mapPlaces f) lanes view) =
        (List.zipWith Lane.row lanes view).map (Row.map f)
  | [], _ => by simp
  | _ :: _, [] => by simp
  | lane :: lanes, places :: view => by
    simp [zipWith_row_mapPlaces f lanes view, Lane.row, Row.map, Lane.held_mapPlaces]

namespace Node

variable {f g : Handle → NodeId} {n : Node}

theorem rows_mapChildren (f : Handle → NodeId) (n : Node) :
    (n.mapChildren f).rows = n.rows.map (Row.map f) := by
  rw [rows_eq, rows_eq, ← Row.zipWith_row_mapPlaces]
  exact congrArg _ (Record.children_mapChildren f n.tag.fields n.record)

theorem mapChildren_congr (agree : ∀ h ∈ n.children, f h = g h) :
    n.mapChildren f = n.mapChildren g := by
  have records : n.record.mapChildren f n.tag.fields = n.record.mapChildren g n.tag.fields := by
    apply Record.ext_children
    · rw [Record.children_mapChildren, Record.children_mapChildren]
      apply Lane.zipWith_mapPlaces_congr
      intro h mem
      exact agree h (by rwa [children, rows_eq])
    · rw [Record.erase, Record.erase, Record.mapChildren_mapChildren,
        Record.mapChildren_mapChildren]
  rw [mapChildren, mapChildren, records]

theorem mapChildren_id (keeps : ∀ h ∈ n.children, f h = h.node) : n.mapChildren f = n := by
  rw [mapChildren_congr keeps]
  have record : n.record.mapChildren Handle.node n.tag.fields = n.record := by
    apply Record.ext_children
    · rw [Record.children_mapChildren]
      exact Lane.zipWith_mapPlaces_node _ _ (Record.length_children _ _)
    · rw [Record.erase, Record.mapChildren_mapChildren, Record.erase]
  rw [mapChildren, record]

/-- The place at position `i` of lane `k`. -/
def place? (n : Node) (k i : Nat) : Option (Option NodeId) :=
  n.record.place? n.tag.fields k i

def fill (n : Node) (k i : Nat) (id : NodeId) : Node :=
  ⟨n.tag, n.record.fill n.tag.fields k i id, n.span⟩

theorem place?_mapChildren (f : Handle → NodeId) {k : Nat} {lane : Lane}
    (here : n.tag.lanes[k]? = some lane) (i : Nat) :
    (n.mapChildren f).place? k i =
      (n.place? k i).map fun place => place.map fun id => f ⟨lane.category, id⟩ :=
  Record.place?_mapChildren f n.record here i

theorem place?_fill_eq (n : Node) (k i : Nat) (new : NodeId) (k' i' : Nat) :
    (n.fill k i new).place? k' i' =
      if k = k' ∧ i = i' then (n.place? k' i').map fun _ => some new else n.place? k' i' := by
  have filled : (n.fill k i new).place? k' i' =
      ((n.record.children n.tag.fields).modify k fun places => places.set i (some new))[k']?.bind
        fun places => places[i']? := by
    rw [← Record.children_fill]
    exact Record.place?_eq _ _ _ _
  rw [filled, List.getElem?_modify, place?, Record.place?_eq]
  cases (n.record.children n.tag.fields)[k']? with
  | none => simp
  | some places =>
    by_cases lane : k = k'
    · by_cases position : i = i'
      · simp only [lane, position, and_self, if_true, Option.map_eq_map, Option.map_some,
          Option.bind_some, List.getElem?_set_self']
        rfl
      · simp [lane, position, List.getElem?_set_ne position]
    · simp [lane]

/-- Filling the only place that holds a child is giving that child another answer. -/
theorem fill_mapChildren (f : Handle → NodeId) {k i : Nat} {lane : Lane} {id : NodeId}
    (here : n.tag.lanes[k]? = some lane) (there : n.place? k i = some (some id))
    (once : n.children.count ⟨lane.category, id⟩ ≤ 1) (new : NodeId) :
    (n.mapChildren f).fill k i new =
      n.mapChildren (Function.update f ⟨lane.category, id⟩ new) := by
  rw [children, rows_eq] at once
  exact congrArg (Node.mk n.tag · n.span) (Record.fill_mapChildren f here there once new)

end Node

end ProgramTree
