import ProgramTree.FixedPoint
import ProgramTree.Session.Rule
import ProgramTree.Visitor

/-!
Passes whose handlers are given by a playbook, a list of rules. A pass that does not come to an end
by itself gives up after a number of entries.
-/

namespace ProgramTree.Session

/-- A list of rules and the number of entries after which a pass gives up. -/
structure Playbook where
  rules : List Rule
  limit : Nat

namespace Playbook

variable {κ : Type} {ρ : κ → Type}

def countCall (book : Playbook) (hook : Hook) (w : Stage) : Except Fault Unit × Stage :=
  if hook.isCounted then
    if w.state.own.entries ≥ book.limit then (.error (.noFixedPoint book.limit), w)
    else (.ok (), w.progress fun p => { p with entries := p.entries + 1 })
  else (.ok (), w)

def consult (book : Playbook) (hook : Hook) (id : NodeId) (w : Stage) :
    Except Fault (Option Rule) × Stage :=
  let p := w.state.own
  match Rule.choose hook id p.round book.rules p.matched with
  | (rule, matched) =>
    (.ok rule, w.progress fun p =>
      { p with matched := matched, trace := p.trace.push (.text s!"{hook.name}:{id.index}") })

/-- The scripted handler for `id`, where `base` is the default. -/
def handle (book : Playbook) (hook : Hook) (id : NodeId) (base : Script Stage ρ NodeId) :
    Script Stage ρ NodeId := do
  Script.step (book.countCall hook)
  match ← Script.step (book.consult hook id) with
  | none => base
  | some rule => rule.handle id base

end Playbook

/-- Which handlers of a pass are scripted: none, the entry points, or also the methods. -/
inductive Level where
  | plain
  | entry
  | full
  deriving DecidableEq, Repr

namespace Playbook

def visitor (book : Playbook) (level : Level) (policy : Policy) : Visitor (Tally Progress) where
  policy := fun _ => policy
  enter h :=
    let base := Script.perform (Call.dispatch h)
    if level = .plain then base
    else do
      let _ ← book.handle (.entry h.category) h.node do base; return h.node
  method t id :=
    let base := Script.perform (Call.walk t id)
    if level = .full then do
      let _ ← book.handle (.method t) id do base; return id
    else base

def transformer (book : Playbook) (level : Level) : Transformer Progress where
  enter h :=
    let base := Script.perform (Call.dispatch h)
    if level = .plain then base else book.handle (.entry h.category) h.node base
  method t id :=
    let base : Transformer.Code Progress NodeId := do
      Script.perform (Call.walk t id)
      return id
    if level = .full then book.handle (.method t) id base else base

def pass (book : Playbook) (level : Level) (counter : UInt64) (p : Progress) : Pass Progress where
  transformer := book.transformer level
  start :=
    let round := p.round + 1
    ⟨counter, .start round book.rules (p.trace.push (.text s!"round:{round}"))⟩

def item (book : Playbook) (id : NodeId) (w : Stage) : Except Fault NodeId × Stage :=
  Script.runAlone (book.handle (ρ := Empty.elim) .item id (pure id)) w

end Playbook

end ProgramTree.Session
