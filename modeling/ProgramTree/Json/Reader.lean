import ProgramTree.Json.Token

/-!
Reading JSON. The reader takes one token after the other and keeps the lists and records that are
still open, innermost first. Of two fields of one name the later counts. Data may be nested at most
`maxDepth` deep.
-/

namespace ProgramTree.Json

def maxDepth : Nat :=
  127

/-- A list or record that is still open. -/
inductive Frame where
  /-- A list with its elements in reverse. -/
  | list (items : List Datum)
  | record (fields : List (String × Datum))
  | field (fields : List (String × Datum)) (name : String)
  deriving Repr

inductive Expect where
  | value
  /-- A value, or the end of a list that was just opened. -/
  | firstValue
  | name
  | firstName
  | colon
  /-- A comma, or the end of the innermost list or record. -/
  | more
  | done (value : Datum)
  deriving Repr

structure Reader where
  expect : Expect
  frames : List Frame
  deriving Repr

namespace Reader

def place? (d : Datum) : List Frame → Option Reader
  | [] => some ⟨.done d, []⟩
  | .list items :: frames => some ⟨.more, .list (d :: items) :: frames⟩
  | .field fields name :: frames =>
    some ⟨.more, .record ((name, d) :: fields.filter fun f => f.1 != name) :: frames⟩
  | .record _ :: _ => none

def enter? (expect : Expect) (frame : Frame) (frames : List Frame) : Option Reader :=
  if frames.length < maxDepth then some ⟨expect, frame :: frames⟩ else none

def start? (frames : List Frame) : Token → Option Reader
  | .atom d => place? d frames
  | .text s => place? (.text s) frames
  | .openList => enter? .firstValue (.list []) frames
  | .openRecord => enter? .firstName (.record []) frames
  | _ => none

def close? : List Frame → Token → Option Reader
  | .list items :: frames, .closeList => place? (.list items.reverse) frames
  | .record fields :: frames, .closeRecord => place? (.record fields) frames
  | _, _ => none

def name? : List Frame → Token → Option Reader
  | .record fields :: frames, .text s => some ⟨.colon, .field fields s :: frames⟩
  | _, _ => none

def step? : Reader → Token → Option Reader
  | ⟨.value, frames⟩, t => start? frames t
  | ⟨.firstValue, frames⟩, .closeList => close? frames .closeList
  | ⟨.firstValue, frames⟩, t => start? frames t
  | ⟨.name, frames⟩, t => name? frames t
  | ⟨.firstName, frames⟩, .closeRecord => close? frames .closeRecord
  | ⟨.firstName, frames⟩, t => name? frames t
  | ⟨.colon, frames⟩, .colon => some ⟨.value, frames⟩
  | ⟨.more, .list items :: frames⟩, .comma => some ⟨.value, .list items :: frames⟩
  | ⟨.more, .record fields :: frames⟩, .comma => some ⟨.name, .record fields :: frames⟩
  | ⟨.more, frames⟩, t => close? frames t
  | _, _ => none

def finish? : Reader → Option Datum
  | ⟨.done d, _⟩ => some d
  | _ => none

end Reader

def parse? (s : String) : Option Datum := do
  let tokens ← tokens? s.toList
  (← tokens.toList.foldlM Reader.step? ⟨.value, []⟩).finish?

end ProgramTree.Json
