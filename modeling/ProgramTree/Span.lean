/-!
Source spans: half-open ranges of byte offsets. A span may be reversed; it is then empty, and
merging takes the smaller start and the larger stop all the same.
-/

namespace ProgramTree

structure Span where
  start : UInt32
  stop : UInt32
  deriving DecidableEq, Repr

namespace Span

def dummy : Span := ⟨0, 0⟩

def isEmpty (s : Span) : Bool :=
  s.stop ≤ s.start

/-- The number of bytes covered, none for a reversed span. -/
def length (s : Span) : Nat :=
  s.stop.toNat - s.start.toNat

/-- The smallest span that reaches from the first start to the last stop. -/
def merge (a b : Span) : Span :=
  ⟨min a.start b.start, max a.stop b.stop⟩

def text (s : Span) : String :=
  s!"{s.start.toNat}..{s.stop.toNat}"

end Span

end ProgramTree
