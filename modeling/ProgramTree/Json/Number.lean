import ProgramTree.Datum

/-!
Numbers as JSON text. A number without point and exponent that fits into 64 bits is whole, except for
`-0`, which has a sign that no whole number carries. Any other number is read in double precision: its
leading digits, as many as fit into 64 bits, are scaled by a power of ten. A number that leaves the
range of double precision on this way is refused, though it may lie just inside it.
-/

namespace ProgramTree.Json

def digitValue (c : Char) : Nat :=
  c.toNat - '0'.toNat

def digitsValue (digits : List Char) : Nat :=
  digits.foldl (fun n c => 10 * n + digitValue c) 0

/-- Continues `n` by the digits before the point that fit into 64 bits, and counts the others. -/
def wholeDigits (n : Nat) : List Char → Nat × Nat
  | [] => (n, 0)
  | c :: cs =>
    let next := 10 * n + digitValue c
    if next < UInt64.size then wholeDigits next cs else (n, cs.length + 1)

def fractionDigits (n places : Nat) : List Char → Nat × Nat
  | [] => (n, places)
  | c :: cs =>
    let next := 10 * n + digitValue c
    if next < UInt64.size then fractionDigits next (places + 1) cs else (n, places)

/-- The nearest number with at most 53 significant bits, of two the one with the even last bit. -/
def roundDouble (n : Nat) : Nat :=
  let shift := n.log2 + 1 - 53
  let kept := n >>> shift
  let rest := n - kept <<< shift
  if 2 * rest > 1 <<< shift ∨ (2 * rest = 1 <<< shift ∧ kept % 2 = 1) then (kept + 1) <<< shift
  else kept <<< shift

/-- The least number that rounds beyond the range of double precision. -/
def overflow : Nat :=
  (1 <<< 1024) - (1 <<< 970)

/-- Whether `significand * 10 ^ exponent` stays within the range of double precision, when both
factors are rounded before they are multiplied. The greatest power of ten in that range is the
308th. -/
def inRange (significand : Nat) (exponent : Int) : Bool :=
  significand == 0 || exponent < 0 ||
    (exponent ≤ 308 &&
      Nat.mul (roundDouble significand) (roundDouble (Nat.pow 10 exponent.toNat)) < overflow)

def splitMinus : List Char → Bool × List Char
  | '-' :: cs => (true, cs)
  | cs => (false, cs)

/-- Reads the exponent at the end of a number, where no exponent counts as absent. -/
def exponent? : List Char → Option (Option Int)
  | [] => some none
  | mark :: cs =>
    let (negative, digits) := match cs with
      | '+' :: digits => (false, digits)
      | cs => splitMinus cs
    if (mark = 'e' ∨ mark = 'E') ∧ digits ≠ [] ∧ digits.all Char.isDigit then
      let value : Int := digitsValue digits
      some (some (if negative then -value else value))
    else none

def fraction? : List Char → Option (Option (List Char) × List Char)
  | '.' :: cs =>
    let digits := cs.takeWhile Char.isDigit
    if digits = [] then none else some (some digits, cs.dropWhile Char.isDigit)
  | cs => some (none, cs)

def number? (cs : List Char) : Option Datum := do
  let (negative, cs) := splitMinus cs
  let whole := cs.takeWhile Char.isDigit
  if whole = [] ∨ (whole.head? = some '0' ∧ whole ≠ ['0']) then none
  let (fraction, cs) ← fraction? (cs.dropWhile Char.isDigit)
  let exponent ← exponent? cs
  let (leading, dropped) := wholeDigits 0 whole
  let (significand, places) := fractionDigits leading 0 (fraction.getD [])
  let scale : Int := exponent.getD 0 + dropped - places
  if !inRange significand scale then none
  let digits : Int := if negative then -significand else significand
  if fraction = none ∧ exponent = none ∧ dropped = 0 ∧ ¬(negative ∧ significand = 0) then
    return .int digits
  return .decimal digits scale

end ProgramTree.Json
