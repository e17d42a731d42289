import ProgramTree.Codec
import ProgramTree.Session.Hook
import ProgramTree.Sequence
import ProgramTree.Transformer

/-!
Rules: handlers given as data. A rule says at which hook and node it applies and what is done there
instead of the default alone: actions before and after, how often the default is carried out, and
which node or fault is answered. Every call of a handler leaves a line in the trace of its pass, and
every action leaves its result there.
-/

namespace ProgramTree.Session

abbrev Action : Type :=
  World Unit → Datum × World Unit

inductive Answer where
  | walked
  | self
  | node (id : NodeId)
  | clone
  | alloc (node : Node)
  /-- The node that a field holds, or else what the default answered. -/
  | child (field : String)

structure Rule where
  /-- Where the rule applies, if anywhere. -/
  hook : Option Hook
  node : Option NodeId
  lastRound : Option Nat
  /-- How many matches are let pass first. -/
  skip : UInt64
  /-- How many matches are taken then. -/
  times : Option UInt64
  before : List Action
  walks : Nat
  after : List Action
  counter : Option UInt64
  fault : Option Fault
  answer : Answer

structure Progress where
  round : Nat
  entries : Nat
  /-- How often each rule has matched. -/
  matched : List Nat
  trace : Array Datum

namespace Progress

def start (round : Nat) (rules : List Rule) (trace : Array Datum) : Progress :=
  ⟨round, 0, rules.map fun _ => 0, trace⟩

def push (p : Progress) (d : Datum) : Progress :=
  { p with trace := p.trace.push d }

end Progress

abbrev Stage : Type :=
  World (Tally Progress)

namespace Stage

def progress (f : Progress → Progress) (w : Stage) : Stage :=
  { w with state := { w.state with own := f w.state.own } }

def act (a : Action) : Stage → Stage
  | ⟨arena, log, tally⟩ =>
    match a ⟨arena, log, ()⟩ with
    | (d, w) => ⟨w.arena, w.log, { tally with own := tally.own.push d }⟩

def alloc (n : Node) (w : Stage) : Except Fault NodeId × Stage :=
  match w.arena.alloc n with
  | (id, arena) => (.ok id, { w with arena := arena })

end Stage

namespace Rule

variable {κ : Type} {ρ : κ → Type}

def applies (rule : Rule) (hook : Hook) (id : NodeId) (round : Nat) : Bool :=
  rule.hook = some hook && rule.node.all (· = id) && rule.lastRound.all fun last => round ≤ last

/-- Whether the `n`th match of a rule is one that it takes. The last of them is a 64-bit sum. -/
def takes (rule : Rule) (n : Nat) : Bool :=
  rule.skip.toNat < n && rule.times.all fun times => n ≤ (rule.skip + times).toNat

/-- The first rule that takes a call, and the matches of each rule after it. Rules behind the one
chosen are not asked. -/
def choose (hook : Hook) (id : NodeId) (round : Nat) :
    List Rule → List Nat → Option Rule × List Nat
  | rule :: rules, n :: matched =>
    if rule.applies hook id round then
      if rule.takes (n + 1) then (some rule, (n + 1) :: matched)
      else
        let (chosen, matched) := choose hook id round rules matched
        (chosen, (n + 1) :: matched)
    else
      let (chosen, matched) := choose hook id round rules matched
      (chosen, n :: matched)
  | _, matched => (none, matched)

/-- The node answered by a handler for `id`, when the default answered `out`. -/
def give (id out : NodeId) : Answer → Script Stage ρ NodeId
  | .walked => pure out
  | .self => pure id
  | .node other => pure other
  | .clone => do
    let n ← Script.read fun w => w.arena.node id
    Script.step (Stage.alloc n)
  | .alloc n => Script.step (Stage.alloc n)
  | .child field => do
    let n ← Script.read fun w => w.arena.node id
    return ((n.record.field? n.tag.fields field).bind NodeId.decode?).getD out

def walk (id : NodeId) (base : Script Stage ρ NodeId) : Nat → Script Stage ρ NodeId
  | 0 => pure id
  | 1 => base
  | n + 1 => do
    let _ ← base
    walk id base n

def handle (rule : Rule) (id : NodeId) (base : Script Stage ρ NodeId) : Script Stage ρ NodeId := do
  rule.before.forM fun a => Script.update (Stage.act a)
  let out ← walk id base rule.walks
  rule.after.forM fun a => Script.update (Stage.act a)
  if let some n := rule.counter then
    Script.update fun w => { w with state := { w.state with replaced := n } }
  if let some e := rule.fault then
    Script.fail e
  give id out rule.answer

end Rule

end ProgramTree.Session
