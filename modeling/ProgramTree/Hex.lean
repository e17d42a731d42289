/-!
Words written as hexadecimal digits, lower case and of fixed width.
-/

namespace ProgramTree.Hex

def digits : (width n : Nat) → List Char
  | 0, _ => []
  | width + 1, n => digits width (n / 16) ++ [Nat.digitChar (n % 16)]

def digit? (c : Char) : Option Nat :=
  if '0' ≤ c ∧ c ≤ '9' then some (c.toNat - '0'.toNat)
  else if 'a' ≤ c ∧ c ≤ 'f' then some (c.toNat - 'a'.toNat + 10)
  else none

def value? (n : Nat) : List Char → Option Nat
  | [] => some n
  | c :: cs => (digit? c).bind fun d => value? (16 * n + d) cs

def encode (word : UInt64) : String :=
  String.ofList (digits 16 word.toNat)

def decode? (s : String) : Option UInt64 :=
  if s.toList.length = 16 then (value? 0 s.toList).map Nat.toUInt64 else none

end ProgramTree.Hex
