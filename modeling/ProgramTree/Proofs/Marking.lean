import ProgramTree.Proofs.Walking

/-!
Reading passes that mark nodes. Entering a handle marks its node in the state of the pass and dispatches;
methods walk, or do nothing. On a finite unfolding without stubs such a pass succeeds, changes nothing but
its state, and has marked all nodes in preorder (`Visitor.Marking.run`).
-/

namespace ProgramTree

namespace Visitor

variable {σ : Type}

/-- The pass marks each node that it enters. It walks all nodes but those of a variant in `cut`. -/
structure Marking (v : Visitor σ) (mark : Handle × Node → σ → σ) (cut : Finset Tag) : Prop where
  enter : ∀ {h n} {w : World σ}, w.arena.Shows h n →
    v.enter h w = Script.perform (Call.dispatch h) { w with state := mark (h, n) w.state }
  skip : ∀ {t} id, t ∈ cut → v.method t id = pure ()
  walk : ∀ {t} id, t ∉ cut → v.method t id = Script.perform (Call.walk t id)

def marked (mark : Handle × Node → σ → σ) (nodes : List (Handle × Node)) (s : σ) : σ :=
  nodes.foldl (fun s p => mark p s) s

/-- In the arena `a`, entering `h` succeeds and marks the nodes of `part`. -/
def Marks (v : Visitor σ) (mark : Handle × Node → σ → σ) (a : Arena) (h : Handle)
    (part : List (Handle × Node)) : Prop :=
  ∀ past w, w.arena = a →
    Ends v.body past (Script.perform (Sum.inl (Call.enter h)) w)
      (fun _ _ w' => w' = { w with state := marked mark part w.state }) (fun _ _ _ => False)

namespace Marking

variable {v : Visitor σ} {mark : Handle × Node → σ → σ} {cut : Finset Tag} {a : Arena} {h : Handle}
  {n : Node} {hs : List Handle} {f : Forest} (marking : v.Marking mark cut)

include marking

theorem of_method {part : List (Handle × Node)} (good : a.Shows h n)
    (method : ∀ past w, w.arena = a →
      Ends v.body past ((v.method n.tag h.node).embed w)
        (fun _ _ w' => w' = { w with state := marked mark part w.state }) (fun _ _ _ => False)) :
    v.Marks mark a h ((h, n) :: part) := by
  intro past w arena
  subst arena
  refine .call ?_
  -- The mark has been made before the handle is dispatched.
  have entered : v.body (.inl (.enter h)) w =
      Script.perform (Sum.inl (Call.dispatch h)) { w with state := mark (h, n) w.state } :=
    congrArg Next.embed (marking.enter good)
  rw [entered]
  refine .call ?_
  have found : World.classify h { w with state := mark (h, n) w.state } = (.ok n.tag, _) :=
    World.classify_of_shows good
  rw [body, Script.step_bind found]
  exact method _ { w with state := mark (h, n) w.state } rfl

theorem of_cut (good : a.Shows h n) (tag : n.tag ∈ cut) : v.Marks mark a h [(h, n)] := by
  refine marking.of_method good fun _ _ _ => ?_
  rw [marking.skip h.node tag]
  exact .ok rfl

theorem of_children {parts : List (List (Handle × Node))} (good : a.Shows h n) (tag : n.tag ∉ cut)
    (kids : List.Forall₂ (v.Marks mark a) n.children parts) :
    v.Marks mark a h ((h, n) :: parts.flatten) := by
  apply marking.of_method good
  intro past w arena
  rw [marking.walk h.node tag]
  refine .call ?_
  -- What is marked so far and what is still to be marked make up the whole.
  have rule : v.Walkable h.node n
      (fun rest _ w' => ∃ done parts', List.Forall₂ (v.Marks mark a) rest parts' ∧
        parts.flatten = done ++ parts'.flatten ∧
        w' = { w with state := marked mark done w.state })
      (fun _ _ _ => False) := by
    refine ⟨fun {rest past w'} ⟨_, _, _, _, same⟩ => ?_, fun {c rest past w'} holds => ?_⟩
    · rw [same]
      exact arena ▸ good.1
    · obtain ⟨done, _, remaining, whole, rfl⟩ := holds
      cases remaining with
      | @cons _ part _ parts' first others =>
        refine (first past { w with state := marked mark done w.state } arena).mono
          (fun _ _ w'' same => ?_) (fun _ _ _ no => no)
        refine ⟨done ++ part, parts', others, by simp [whole], ?_⟩
        rw [same, marked, marked, marked, List.foldl_append]
  refine (rule.walk_ends ⟨[], parts, kids, rfl, rfl⟩).mono (fun past _ w' holds => ?_)
    (fun _ _ _ no => no)
  obtain ⟨done, parts', remaining, whole, same⟩ := holds
  cases remaining
  rw [same, whole, List.flatten_nil, List.append_nil]

theorem of_unfolds (unfolds : Unfolds a cut hs f) (none : f.stubs = []) :
    ∃ parts, List.Forall₂ (v.Marks mark a) hs parts ∧ parts.flatten = f.nodes := by
  induction unfolds with
  | nil => exact ⟨[], .nil, rfl⟩
  | stub _ _ _ => cases none
  | @cut h n _ _ good tag _ ih =>
    obtain ⟨parts, others, whole⟩ := ih none
    exact ⟨[(h, n)] :: parts, .cons (marking.of_cut good tag) others, congrArg ((h, n) :: ·) whole⟩
  | @node h n _ _ _ good tag _ _ ihKids ihRest =>
    rw [Forest.stubs, List.append_eq_nil_iff] at none
    obtain ⟨inner, kids, wholeKids⟩ := ihKids none.1
    obtain ⟨parts, others, wholeRest⟩ := ihRest none.2
    refine ⟨((h, n) :: inner.flatten) :: parts, .cons (marking.of_children good tag kids) others, ?_⟩
    simp [Forest.nodes, wholeKids, wholeRest]

theorem run {w : World σ} (unfolds : Unfolds w.arena cut [h] f) (none : f.stubs = []) :
    ∃ enough, ∀ steps, enough ≤ steps →
      v.run steps (.enter h) w = some (.ok (), { w with state := marked mark f.nodes w.state }) := by
  obtain ⟨_, parts, whole⟩ := marking.of_unfolds unfolds none
  cases parts with
  | @cons _ part _ _ first rest =>
    cases rest
    obtain ⟨enough, _, r, w', ends, holds⟩ := (first [] w rfl).run
    refine ⟨enough, fun steps more => ?_⟩
    cases r with
    | error e => exact holds.elim
    | ok _ =>
      have same : part = f.nodes := by simpa using whole
      rw [← same, ← holds]
      exact (ends steps more).1

end Marking

end Visitor

end ProgramTree
