import ProgramTree.Field

/-!
Records: one value for each of a list of fields. The lanes of a record are those of its fields, one
field after the other.
-/

namespace ProgramTree

def lanesOf (fields : List Field) : List Lane :=
  fields.flatMap fun f => f.type.lanes

abbrev Record : List Field → Type
  | [] => Unit
  | f :: fields => f.type.Val × Record fields

namespace Record

instance decidableEq : (fields : List Field) → DecidableEq (Record fields)
  | [] => inferInstanceAs (DecidableEq Unit)
  | f :: fields =>
    have := decidableEq fields
    inferInstanceAs (DecidableEq (f.type.Val × Record fields))

/-- The places of each lane, with their occupants. -/
def children : (fields : List Field) → Record fields → List (List (Option NodeId))
  | [], _ => []
  | f :: fields, (v, r) => f.type.children v ++ children fields r

def place? : (fields : List Field) → Record fields → (k i : Nat) → Option (Option NodeId)
  | [], _, _, _ => none
  | f :: fields, (v, r), k, i =>
    if k < f.type.lanes.length then f.type.place? v k i
    else place? fields r (k - f.type.lanes.length) i

/-- Puts `id` in the place at position `i` of lane `k`. Without such a place nothing changes. -/
def fill : (fields : List Field) → Record fields → (k i : Nat) → NodeId → Record fields
  | [], r, _, _, _ => r
  | f :: fields, (v, r), k, i, id =>
    if k < f.type.lanes.length then (f.type.fill v k i id, r)
    else (v, fill fields r (k - f.type.lanes.length) i id)

theorem length_children : (fields : List Field) → (r : Record fields) →
    (children fields r).length = (lanesOf fields).length
  | [], _ => rfl
  | f :: fields, (v, r) => by
    simp [children, lanesOf, FieldType.length_children, length_children fields r]

theorem place?_eq : (fields : List Field) → (r : Record fields) → (k i : Nat) →
    place? fields r k i = (children fields r)[k]?.bind fun places => places[i]?
  | [], _, _, _ => rfl
  | f :: fields, (v, r), k, i => by
    rw [place?, children, List.getElem?_append, FieldType.length_children]
    split
    · exact FieldType.place?_eq f.type v k i
    · exact place?_eq fields r _ i

theorem modify_append {α : Type} (g : α → α) : (l m : List α) → (k : Nat) →
    (l ++ m).modify k g =
      if k < l.length then l.modify k g ++ m else l ++ m.modify (k - l.length) g
  | [], m, k => by simp
  | a :: l, m, 0 => by simp
  | a :: l, m, k + 1 => by
    rw [List.cons_append, List.modify_succ_cons, modify_append g l m k]
    by_cases h : k < l.length <;> simp [h]

theorem children_fill : (fields : List Field) → (r : Record fields) → (k i : Nat) →
    (id : NodeId) → children fields (fill fields r k i id) =
      (children fields r).modify k fun places => places.set i (some id)
  | [], _, _, _, _ => by simp [children]
  | f :: fields, (v, r), k, i, id => by
    by_cases h : k < f.type.lanes.length
    · simp [fill, children, modify_append, FieldType.length_children, FieldType.children_fill, h]
    · simp [fill, children, modify_append, FieldType.length_children, children_fill fields r, h]

/-- Equality field by field, as the compiled language sees it. -/
def same : (fields : List Field) → Record fields → Record fields → Bool
  | [], _, _ => true
  | f :: fields, (v, r), (v', r') => f.type.same v v' && same fields r r'

end Record

end ProgramTree
