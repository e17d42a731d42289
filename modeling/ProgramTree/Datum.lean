/-!
Plain data: the values that can be written as text and read again. Numbers written as whole numbers
are kept apart from those with a point or an exponent, which are never taken for whole ones.
-/

namespace ProgramTree

inductive Datum where
  | null
  | bool (value : Bool)
  | int (value : Int)
  /-- The number `digits * 10 ^ exponent`. -/
  | decimal (digits : Int) (exponent : Int)
  | text (value : String)
  | list (items : List Datum)
  | record (fields : List (String × Datum))
  deriving Inhabited, Repr

namespace Datum

def nat (value : Nat) : Datum :=
  .int value

def bool? : Datum → Option Bool
  | bool b => some b
  | _ => none

def int? : Datum → Option Int
  | int value => some value
  | _ => none

def nat? (d : Datum) : Option Nat :=
  match d.int? with
  | some (.ofNat n) => some n
  | _ => none

def below? (bound : Nat) (d : Datum) : Option Nat :=
  d.nat?.filter fun n => n < bound

def count? : Datum → Option Nat :=
  below? UInt64.size

def word? (d : Datum) : Option UInt64 :=
  d.count?.map Nat.toUInt64

def text? : Datum → Option String
  | text s => some s
  | _ => none

def list? : Datum → Option (List Datum)
  | list items => some items
  | _ => none

def field? (d : Datum) (name : String) : Option Datum :=
  match d with
  | record fields => fields.lookup name
  | _ => none

def ofOption {α : Type} (f : α → Datum) : Option α → Datum
  | none => null
  | some a => f a

def option? {α : Type} (f : Datum → Option α) : Datum → Option (Option α)
  | null => some none
  | d => (f d).map some

def listOf? {α : Type} (f : Datum → Option α) (d : Datum) : Option (List α) :=
  d.list?.bind fun items => items.mapM f

/-- Reads a field of a record that may be absent or `null`. -/
def optionalField? {α : Type} (read : Datum → Option α) (d : Datum) (name : String) :
    Option (Option α) :=
  match d.field? name with
  | none => some none
  | some v => option? read v

theorem sizeOf_lookup_lt {name : String} {v : Datum} :
    {fields : List (String × Datum)} → fields.lookup name = some v → sizeOf v < sizeOf fields
  | [], h => by simp at h
  | (key, d) :: fields, h => by
    rw [List.lookup_cons] at h
    split at h
    · cases h
      simp only [List.cons.sizeOf_spec, Prod.mk.sizeOf_spec]
      omega
    · have := sizeOf_lookup_lt h
      simp only [List.cons.sizeOf_spec]
      omega

theorem sizeOf_field?_lt {d v : Datum} {name : String} (h : d.field? name = some v) :
    sizeOf v < sizeOf d := by
  cases d with
  | record fields =>
    have := sizeOf_lookup_lt (show fields.lookup name = some v from h)
    simp only [record.sizeOf_spec]
    omega
  | _ => simp [field?] at h

/-- Names the elements of a list that gives the fields of a record in order. A list of another length
stays a list. -/
def byName (names : List String) : Datum → Datum
  | list items => if items.length = names.length then record (names.zip items) else list items
  | d => d

/-- The elements of a field that holds a list, each smaller than the whole. An absent field holds
none. -/
def parts? (d : Datum) (name : String) : Option (List { x : Datum // sizeOf x < sizeOf d }) :=
  match h : d.field? name with
  | none => some []
  | some (.list items) => some (items.attach.map fun ⟨x, hx⟩ => ⟨x, by
      have := sizeOf_field?_lt h
      have := List.sizeOf_lt_of_mem hx
      simp only [list.sizeOf_spec] at *
      omega⟩)
  | some _ => none

def need {α : Type} (read : Datum → Option α) (d : Datum) (name : String) : Option α :=
  (d.field? name).bind read

def needD {α : Type} (read : Datum → Option α) (default : α) (d : Datum) (name : String) :
    Option α :=
  match d.field? name with
  | none => some default
  | some v => read v

def substitute (s : String) (d : Datum) : Datum → Datum
  | text t => if t = s then d else text t
  | list items => list (items.attach.map fun ⟨v, h⟩ =>
      have := List.sizeOf_lt_of_mem h
      substitute s d v)
  | record fields => record (fields.attach.map fun ⟨(name, v), h⟩ =>
      have := List.sizeOf_lt_of_mem h
      (name, substitute s d v))
  | other => other
termination_by v => sizeOf v
decreasing_by
  all_goals simp_all
  all_goals omega

end Datum

end ProgramTree
