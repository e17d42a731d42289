import ProgramTree.Schema
import ProgramTree.Span

/-!
Nodes: a variant, the record of its fields, and the span of source it comes from.
-/

namespace ProgramTree

structure Node where
  tag : Tag
  record : Record tag.fields
  span : Span := Span.dummy
  deriving DecidableEq

namespace Node

def category (n : Node) : Category :=
  n.tag.category

def as? (n : Node) (t : Tag) : Option (Record t.fields) :=
  if h : n.tag = t then some (h ▸ n.record) else none

/-- Replaces the record of a node by one of the same or another variant, keeping the span. -/
def withRecord (n : Node) (t : Tag) (record : Record t.fields) : Node :=
  ⟨t, record, n.span⟩

/-- Equality of variant, fields and span, as the compiled language sees it. -/
def same (a b : Node) : Bool :=
  match b.as? a.tag with
  | some record => Record.same a.tag.fields a.record record && decide (a.span = b.span)
  | none => false

end Node

end ProgramTree
