import ProgramTree.Hex

/-!
Texts in quotes as JSON. A backslash starts an escape; characters beyond the first plane are escaped
as two units, and a unit of such a pair does not stand alone.
-/

namespace ProgramTree.Json

def unit? (digits : List Char) : Option Nat :=
  Hex.value? 0 (digits.map Char.toLower)

/-- The character that a pair of units denotes. -/
def pair? (lead trail : Nat) : Option Char :=
  if 0xDC00 ≤ trail ∧ trail < 0xE000 then
    some (Char.ofNat (0x10000 + 0x400 * (lead - 0xD800) + (trail - 0xDC00)))
  else none

def shortEscape? : Char → Option Char
  | '"' => some '"'
  | '\\' => some '\\'
  | '/' => some '/'
  | 'b' => some '\x08'
  | 'f' => some '\x0c'
  | 'n' => some '\n'
  | 'r' => some '\r'
  | 't' => some '\t'
  | _ => none

/-- Resolves the escapes of a text. The characters already resolved stand in reverse in `done`. -/
def unescape? (done : List Char) : List Char → Option (List Char)
  | [] => some done.reverse
  | '\\' :: 'u' :: a :: b :: c :: d :: cs =>
    match unit? [a, b, c, d] with
    | none => none
    | some unit =>
      if unit < 0xD800 ∨ 0xE000 ≤ unit then unescape? (Char.ofNat unit :: done) cs
      else if 0xDC00 ≤ unit then none
      else match cs with
        | '\\' :: 'u' :: e :: f :: g :: h :: cs =>
          match (unit? [e, f, g, h]).bind (pair? unit) with
          | none => none
          | some char => unescape? (char :: done) cs
        | _ => none
  | '\\' :: c :: cs =>
    match shortEscape? c with
    | none => none
    | some char => unescape? (char :: done) cs
  | c :: cs => if c < ' ' ∨ c = '\\' then none else unescape? (c :: done) cs

def escape (c : Char) : List Char :=
  if c = '"' then ['\\', '"']
  else if c = '\\' then ['\\', '\\']
  else if c < ' ' then '\\' :: 'u' :: Hex.digits 4 c.toNat
  else [c]

end ProgramTree.Json
