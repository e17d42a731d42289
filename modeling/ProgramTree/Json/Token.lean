import ProgramTree.Json.Number
import ProgramTree.Json.Text

/-!
The tokens of JSON text. The scanner takes one character after the other; it collects the raw contents
of a text up to its closing quote, and any other run of letters, digits and signs as one word.
-/

namespace ProgramTree.Json

inductive Token where
  | openList
  | closeList
  | openRecord
  | closeRecord
  | comma
  | colon
  | text (value : String)
  | atom (value : Datum)
  deriving Repr

/-- What the scanner is in the middle of, with the characters collected so far in reverse. -/
inductive Scan where
  | between
  | word (taken : List Char)
  | text (taken : List Char)
  | escape (taken : List Char)
  deriving DecidableEq, Repr

namespace Scan

def isBlank (c : Char) : Bool :=
  c = ' ' || c = '\t' || c = '\n' || c = '\r'

def isWord (c : Char) : Bool :=
  c.isAlphanum || c = '-' || c = '+' || c = '.'

def word? (cs : List Char) : Option Datum :=
  if cs = "null".toList then some .null
  else if cs = "true".toList then some (.bool true)
  else if cs = "false".toList then some (.bool false)
  else number? cs

def start? (tokens : Array Token) (c : Char) : Option (Scan × Array Token) :=
  if isBlank c then some (between, tokens)
  else if isWord c then some (word [c], tokens)
  else match c with
    | '"' => some (text [], tokens)
    | '[' => some (between, tokens.push .openList)
    | ']' => some (between, tokens.push .closeList)
    | '\x7b' => some (between, tokens.push .openRecord)
    | '\x7d' => some (between, tokens.push .closeRecord)
    | ',' => some (between, tokens.push .comma)
    | ':' => some (between, tokens.push .colon)
    | _ => none

def step? : Scan × Array Token → Char → Option (Scan × Array Token)
  | (between, tokens), c => start? tokens c
  | (word taken, tokens), c =>
    if isWord c then some (word (c :: taken), tokens)
    else match word? taken.reverse with
      | none => none
      | some d => start? (tokens.push (.atom d)) c
  | (text taken, tokens), c =>
    if c = '\\' then some (escape (c :: taken), tokens)
    else if c = '"' then
      match unescape? [] taken.reverse with
      | none => none
      | some cs => some (between, tokens.push (.text (String.ofList cs)))
    else some (text (c :: taken), tokens)
  | (escape taken, tokens), c => some (text (c :: taken), tokens)

def finish? : Scan × Array Token → Option (Array Token)
  | (between, tokens) => some tokens
  | (word taken, tokens) => (word? taken.reverse).map fun d => tokens.push (.atom d)
  | (text _, _) | (escape _, _) => none

end Scan

def tokens? (cs : List Char) : Option (Array Token) :=
  (cs.foldlM Scan.step? (.between, #[])).bind Scan.finish?

end ProgramTree.Json
