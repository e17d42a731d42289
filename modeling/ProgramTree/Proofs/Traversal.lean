import Mathlib.Data.Finset.Insert
import ProgramTree.Proofs.Marking

/-!
What a reading pass reads. The recorder notes every handle it enters and goes on by default, except
that it does not look into nodes of some variants. On a finite unfolding without stubs it succeeds, and
what it has noted is the preorder (`recorder_visits_preorder`).
-/

namespace ProgramTree

namespace Visitor

/-- The pass that notes every handle it enters, and walks all nodes but those of a variant in
`cut`. -/
def recorder (policy : Policy) (cut : Finset Tag) : Visitor (List Handle) where
  policy := fun _ => policy
  enter h := do
    Script.update fun w => { w with state := w.state ++ [h] }
    Script.perform (Call.dispatch h)
  method t id := if t ∈ cut then pure () else Script.perform (Call.walk t id)

/-- In the arena `a`, entering `h` succeeds and notes the handles of `part`. -/
def Notes (v : Visitor (List Handle)) (a : Arena) (h : Handle) (part : List Handle) : Prop :=
  ∀ past w, w.arena = a →
    Ends v.body past (Script.perform (Sum.inl (Call.enter h)) w)
      (fun _ _ w' => w' = { w with state := w.state ++ part }) (fun _ _ _ => False)

theorem recorder_marking (policy : Policy) (cut : Finset Tag) :
    (recorder policy cut).Marking (fun p noted => noted ++ [p.1]) cut where
  enter _ := rfl
  skip _ tag := if_pos tag
  walk _ tag := if_neg tag

theorem marked_recorder (nodes : List (Handle × Node)) (noted : List Handle) :
    marked (fun p noted => noted ++ [p.1]) nodes noted = noted ++ nodes.map Prod.fst := by
  induction nodes generalizing noted with
  | nil => simp [marked]
  | cons p nodes ih => simpa [marked] using ih (noted ++ [p.1])

theorem notes_of_unfolds (policy : Policy) {cut : Finset Tag} {a : Arena} {hs : List Handle} {f : Forest}
    (unfolds : Unfolds a cut hs f) (good : ∀ c ∈ f.preorder, ∃ n, a.Shows c n) :
    ∃ parts, List.Forall₂ ((recorder policy cut).Notes a) hs parts ∧ parts.flatten = f.preorder := by
  have none : f.stubs = [] := List.eq_nil_iff_forall_not_mem.mpr fun h stub => by
    obtain ⟨n, shown⟩ := good h ((f.mem_preorder_iff h).mpr (.inr stub))
    exact unfolds.not_shows_of_mem_stubs h stub n shown
  obtain ⟨parts, marks, whole⟩ := (recorder_marking policy cut).of_unfolds unfolds none
  refine ⟨parts.map (List.map Prod.fst), ?_, ?_⟩
  · apply List.forall₂_map_right_iff.mpr
    refine marks.imp fun h part marks past w arena => ?_
    rw [← marked_recorder]
    exact marks past w arena
  · rw [← List.map_flatten, whole]
    exact Forest.handles_eq_preorder none

/-- From any handle, in any arena and with either policy: if the unfolding from the handle, with the
variants in `cut` as leaves, is finite and has no stubs, then the recorder succeeds, leaves the arena
as it is and has noted the preorder of the unfolding. -/
theorem recorder_visits_preorder (policy : Policy) (cut : Finset Tag) (h : Handle)
    (w : World (List Handle)) (f : Forest) (unfolds : Unfolds w.arena cut [h] f)
    (good : ∀ c ∈ f.preorder, ∃ n, w.arena.Shows c n) :
    ∃ enough, ∀ steps, enough ≤ steps →
      (recorder policy cut).run steps (.enter h) w =
        some (.ok (), { w with state := w.state ++ f.preorder }) := by
  obtain ⟨parts, notes, whole⟩ := notes_of_unfolds policy unfolds good
  cases notes with
  | @cons _ part _ _ first rest =>
    cases rest
    obtain ⟨enough, _, r, w', ends, holds⟩ := (first [] w rfl).run
    refine ⟨enough, fun steps more => ?_⟩
    have done := (ends steps more).1
    cases r with
    | error e => exact holds.elim
    | ok _ =>
      have same : part = f.preorder := by simpa using whole
      rw [holds, same] at done
      exact done

def endpointSample : World (List Handle) where
  arena := .ofList
    [⟨.endpointDeclaration, ("out", .output, some ⟨.stream, [⟨1⟩], some ⟨2⟩⟩,
        some [⟨"first", none⟩, ⟨"second", some ⟨3⟩⟩], some ⟨4⟩, ()), .dummy⟩,
      ⟨.concreteType, (.float32, ()), .dummy⟩, ⟨.unaryOperator, (.negate, ⟨5⟩, ()), .dummy⟩,
      ⟨.constant, (.int 1, ()), .dummy⟩, ⟨.annotationObject, ([⟨"min", ⟨5⟩⟩], ()), .dummy⟩,
      ⟨.constant, (.int 2, ()), .dummy⟩]
  log := #[]
  state := []

theorem recorder_visits_endpointSample :
    ∃ enough, ∀ steps, enough ≤ steps →
      (recorder .snapshot {.unaryOperator}).run steps (.enter ⟨.object, ⟨0⟩⟩) endpointSample =
        some (.ok (), { endpointSample with
          state := [⟨.object, ⟨0⟩⟩, ⟨.expression, ⟨1⟩⟩, ⟨.expression, ⟨2⟩⟩, ⟨.expression, ⟨3⟩⟩,
            ⟨.object, ⟨4⟩⟩, ⟨.expression, ⟨5⟩⟩] }) := by
  have unfolds : Unfolds endpointSample.arena {.unaryOperator} [⟨.object, ⟨0⟩⟩] _ :=
    .node ⟨rfl, rfl⟩ (by decide)
      (.node ⟨rfl, rfl⟩ (by decide) .nil (.cut ⟨rfl, rfl⟩ (by decide)
        (.node ⟨rfl, rfl⟩ (by decide) .nil (.node ⟨rfl, rfl⟩ (by decide)
          (.node ⟨rfl, rfl⟩ (by decide) .nil .nil) .nil)))) .nil
  refine recorder_visits_preorder .snapshot _ _ endpointSample _ unfolds ?_
  simp only [Forest.preorder, List.nil_append, List.append_nil, List.forall_mem_cons]
  exact ⟨⟨_, rfl, rfl⟩, ⟨_, rfl, rfl⟩, ⟨_, rfl, rfl⟩, ⟨_, rfl, rfl⟩, ⟨_, rfl, rfl⟩, ⟨_, rfl, rfl⟩,
    List.forall_mem_nil _⟩

end Visitor

end ProgramTree
