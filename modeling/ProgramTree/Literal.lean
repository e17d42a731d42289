/-!
The values of constants. A floating-point value is kept as its 64-bit pattern: nothing computes with
it, and the pattern carries signed zeros and the payloads of NaNs exactly.
-/

namespace ProgramTree

inductive Literal where
  | int (value : Int64)
  | float (bits : UInt64)
  | bool (value : Bool)
  | text (value : String)
  deriving DecidableEq, Repr

namespace Literal

def magnitude (bits : UInt64) : UInt64 :=
  bits &&& 0x7fffffffffffffff

def isNaN (bits : UInt64) : Bool :=
  magnitude bits > 0x7ff0000000000000

/-- Numeric equality of two patterns: a NaN equals nothing, and the two zeros are equal. -/
def floatEq (a b : UInt64) : Bool :=
  !isNaN a && !isNaN b && (a == b || (magnitude a == 0 && magnitude b == 0))

/-- Equality as the compiled language sees it, which on floating-point values is numeric. -/
def same : Literal → Literal → Bool
  | float a, float b => floatEq a b
  | a, b => a == b

end Literal

end ProgramTree
