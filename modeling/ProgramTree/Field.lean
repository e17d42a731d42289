import ProgramTree.Handle
import ProgramTree.Literal
import ProgramTree.Vocabulary

/-!
Fields: what a variant stores under a name. A field is payload, a link to a node owned elsewhere, or
holds children. Children are grouped in lanes: a lane is one place for a child or a sequence of
places, and a place is either occupied or empty. Passes see a node only through its lanes.
-/

namespace ProgramTree

/-- A named child: a member of a structure with its type, or a property with its value. -/
structure Labelled where
  label : String
  child : NodeId
  deriving DecidableEq, Repr

structure EndpointDetails where
  kind : EndpointKind
  sampleTypes : List NodeId
  arraySize : Option NodeId
  deriving DecidableEq, Repr

structure PathSection where
  label : String
  index : Option NodeId
  deriving DecidableEq, Repr

structure ConnectionEnd where
  processor : Option String
  endpoint : String
  deriving DecidableEq, Repr

inductive FieldType where
  | text
  | flag
  | path
  | literal
  | word (vocabulary : Vocabulary)
  | connectionEnd
  /-- A node that is owned elsewhere; passes do not follow it. -/
  | link (category : Category)
  | child (category : Category)
  | optional (category : Category)
  | sequence (category : Category)
  /-- Named child expressions, each stored under `key` beside its name. -/
  | labelled (key : String)
  | details
  | childPath
  deriving DecidableEq, Repr

inductive Arity where
  | one
  | many
  deriving DecidableEq, Repr

/-- A group of places for children that are entered as one category. -/
structure Lane where
  category : Category
  arity : Arity
  deriving DecidableEq, Repr

namespace FieldType

abbrev Val : FieldType → Type
  | text => String
  | flag => Bool
  | path => List String
  | literal => Literal
  | word v => v.Word
  | connectionEnd => ConnectionEnd
  | link _ => NodeId
  | child _ => NodeId
  | optional _ => Option NodeId
  | sequence _ => List NodeId
  | labelled _ => List Labelled
  | details => Option EndpointDetails
  | childPath => Option (List PathSection)

instance decidableEqVal : (ty : FieldType) → DecidableEq ty.Val
  | text => inferInstanceAs (DecidableEq String)
  | flag => inferInstanceAs (DecidableEq Bool)
  | path => inferInstanceAs (DecidableEq (List String))
  | literal => inferInstanceAs (DecidableEq Literal)
  | word v => inferInstanceAs (DecidableEq v.Word)
  | connectionEnd => inferInstanceAs (DecidableEq ConnectionEnd)
  | link _ => inferInstanceAs (DecidableEq NodeId)
  | child _ => inferInstanceAs (DecidableEq NodeId)
  | optional _ => inferInstanceAs (DecidableEq (Option NodeId))
  | sequence _ => inferInstanceAs (DecidableEq (List NodeId))
  | labelled _ => inferInstanceAs (DecidableEq (List Labelled))
  | details => inferInstanceAs (DecidableEq (Option EndpointDetails))
  | childPath => inferInstanceAs (DecidableEq (Option (List PathSection)))

/-- The lanes of a field, in the order in which they are walked. -/
def lanes : FieldType → List Lane
  | child c | optional c => [⟨c, .one⟩]
  | sequence c => [⟨c, .many⟩]
  | labelled _ | childPath => [⟨.expression, .many⟩]
  | details => [⟨.expression, .many⟩, ⟨.expression, .one⟩]
  | _ => []

/-- The places of each lane, with their occupants. A group that is absent has no places. -/
def children : (ty : FieldType) → ty.Val → List (List (Option NodeId))
  | child _, id => [[some id]]
  | optional _, id? => [[id?]]
  | sequence _, ids => [ids.map some]
  | labelled _, items => [items.map fun item => some item.child]
  | details, none => [[], []]
  | details, some d => [d.sampleTypes.map some, [d.arraySize]]
  | childPath, none => [[]]
  | childPath, some sections => [sections.map fun s => s.index]
  | text, _ | flag, _ | path, _ | literal, _ | word _, _ | connectionEnd, _ | link _, _ => []

def place? : (ty : FieldType) → ty.Val → (k i : Nat) → Option (Option NodeId)
  | child _, id, k, i => if k = 0 ∧ i = 0 then some (some id) else none
  | optional _, id?, k, i => if k = 0 ∧ i = 0 then some id? else none
  | sequence _, ids, k, i => if k = 0 then ids[i]?.map some else none
  | labelled _, items, k, i => if k = 0 then items[i]?.map fun item => some item.child else none
  | details, none, _, _ => none
  | details, some d, k, i =>
    if k = 0 then d.sampleTypes[i]?.map some else if k = 1 ∧ i = 0 then some d.arraySize else none
  | childPath, none, _, _ => none
  | childPath, some sections, k, i => if k = 0 then sections[i]?.map fun s => s.index else none
  | text, _, _, _ | flag, _, _, _ | path, _, _, _ | literal, _, _, _ | word _, _, _, _
  | connectionEnd, _, _, _ | link _, _, _, _ => none

/-- Puts `id` in the place at position `i` of lane `k`. Without such a place nothing changes. -/
def fill : (ty : FieldType) → ty.Val → (k i : Nat) → NodeId → ty.Val
  | child _, old, k, i, id => if k = 0 ∧ i = 0 then id else old
  | optional _, old, k, i, id => if k = 0 ∧ i = 0 then some id else old
  | sequence _, ids, k, i, id => if k = 0 then ids.set i id else ids
  | labelled _, items, k, i, id =>
    if k = 0 then items.modify i fun item => { item with child := id } else items
  | details, none, _, _, _ => none
  | details, some d, k, i, id =>
    if k = 0 then some { d with sampleTypes := d.sampleTypes.set i id }
    else if k = 1 ∧ i = 0 then some { d with arraySize := some id }
    else some d
  | childPath, none, _, _, _ => none
  | childPath, some sections, k, i, id =>
    if k = 0 then some (sections.modify i fun s => { s with index := some id }) else some sections
  | text, v, _, _, _ | flag, v, _, _, _ | path, v, _, _, _ | literal, v, _, _, _
  | word _, v, _, _, _ | connectionEnd, v, _, _, _ | link _, v, _, _, _ => v

theorem length_children (ty : FieldType) (v : ty.Val) :
    (ty.children v).length = ty.lanes.length := by
  cases ty with
  | details | childPath => cases v <;> rfl
  | _ => rfl

theorem place?_eq (ty : FieldType) (v : ty.Val) (k i : Nat) :
    ty.place? v k i = (ty.children v)[k]?.bind fun places => places[i]? := by
  cases ty with
  | details | childPath =>
    cases v <;> rcases k with _ | _ | k <;> cases i <;> simp [place?, children]
  | _ => rcases k with _ | k <;> cases i <;> simp [place?, children]

theorem map_modify_eq_set {α β : Type} (f : α → β) (g : α → α) (b : β) (h : ∀ a, f (g a) = b) :
    (l : List α) → (i : Nat) → (l.modify i g).map f = (l.map f).set i b
  | [], i => by simp
  | a :: l, 0 => by simp [h]
  | a :: l, i + 1 => by simp [map_modify_eq_set f g b h l i]

theorem children_fill (ty : FieldType) (v : ty.Val) (k i : Nat) (id : NodeId) :
    ty.children (ty.fill v k i id) =
      (ty.children v).modify k fun places => places.set i (some id) := by
  cases ty with
  | details | childPath =>
    cases v <;> rcases k with _ | _ | k <;> cases i <;>
      simp [fill, children, map_modify_eq_set _ _ (some id)]
  | _ => rcases k with _ | k <;> cases i <;>
      simp [fill, children, map_modify_eq_set _ _ (some id)]

/-- Equality of values; literals are compared as the compiled language compares them. -/
def same : (ty : FieldType) → ty.Val → ty.Val → Bool
  | literal, a, b => Literal.same a b
  | _, a, b => decide (a = b)

end FieldType

structure Field where
  name : String
  type : FieldType
  deriving DecidableEq, Repr

end ProgramTree
