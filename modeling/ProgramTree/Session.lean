import ProgramTree.Json.Printer
import ProgramTree.Json.Reader
import ProgramTree.Session.Request

/-!
Sessions: a start arena and a list of requests that are carried out one after the other on it. The
log of a request is that of all it does, also through its rules.
-/

namespace ProgramTree

namespace Session

/-- Carries out one request, with its log if that is wanted. -/
def step (logged : Bool) (request : Datum) (a : Arena) : Datum × Arena :=
  match Request.action request ⟨a, #[], ()⟩ with
  | (out, w) =>
    (if logged then
      .record [("out", out), ("log", .list (w.log.toList.map fun e => .text e.text))]
    else out, w.arena)

def run (logged : Bool) (requests : List Datum) (a : Arena) : Array Datum × Arena :=
  requests.foldl (fun (results, a) request =>
    match step logged request a with
    | (result, a) => (results.push result, a)) (#[], a)

def answer? (d : Datum) : Option Datum := do
  let requests ← d.need Datum.list? "steps"
  let arena ← d.needD Arena.decode? .empty "nodes"
  let logged := ((d.field? "log").bind Datum.bool?).getD false
  return .record [("results", .list (run logged requests arena).1.toList)]

def answer (d : Datum) : Datum :=
  (answer? d).getD Operation.badInput

/-- The answer to a session given as text, as text. -/
def respond (line : String) : String :=
  Json.print <| match Json.parse? line with
    | some d => answer d
    | none => Operation.badInput

end Session

end ProgramTree
