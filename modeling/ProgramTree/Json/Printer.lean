import ProgramTree.Datum
import ProgramTree.Json.Text

/-!
Writing JSON, on one line and without blanks. Each function continues the text written so far.
-/

namespace ProgramTree.Json

def writeText (out s : String) : String :=
  (s.toList.foldl (fun out c => (escape c).foldl String.push out) (out.push '"')).push '"'

mutual

def write (out : String) : Datum → String
  | .null => out ++ "null"
  | .bool true => out ++ "true"
  | .bool false => out ++ "false"
  | .int value => out ++ toString value
  | .decimal digits exponent => out ++ toString digits ++ "e" ++ toString exponent
  | .text s => writeText out s
  | .list [] => out ++ "[]"
  | .list (d :: items) => (writeItems (write (out.push '[') d) items).push ']'
  | .record [] => out ++ "\x7b\x7d"
  | .record ((name, d) :: fields) =>
    (writeFields (write ((writeText (out.push '\x7b') name).push ':') d) fields).push '\x7d'

def writeItems (out : String) : List Datum → String
  | [] => out
  | d :: items => writeItems (write (out.push ',') d) items

def writeFields (out : String) : List (String × Datum) → String
  | [] => out
  | (name, d) :: fields =>
    writeFields (write ((writeText (out.push ',') name).push ':') d) fields

end

def print (d : Datum) : String :=
  write "" d

end ProgramTree.Json
