import Editing.Proofs.Session.Sparing

/-!
# Numbers given out

From the outcomes of a run one can read off which operations were performed, with their answers, and
so the numbers of what they made. Overlays are numbered in turn: each one that is made gets the next
number, whatever happens between, and no number is given out twice.
-/

namespace Editing

/-! ## Operations performed -/

/-- An operation with its answer. -/
def Session.answered : Session × Op → Op × Except Error Reply
  | (s, o) => (o, (o.act.run s).1)

mutual

/-- The operations performed in a step, with their answers, as the outcome tells. -/
def Step.performed : Step → Outcome → List (Op × Except Error Reply)
  | .op o, .plain r => [(o, r)]
  | .withCurrent _ steps _, .nested inner _ => allPerformed steps inner
  | _, _ => []

/-- The operations performed in several steps, as far as there are outcomes. -/
def allPerformed : List Step → List Outcome → List (Op × Except Error Reply)
  | step :: steps, outcome :: outcomes => step.performed outcome ++ allPerformed steps outcomes
  | _, _ => []

end

namespace Session

variable {s : Session}

theorem outcome_withCurrent {view : ViewId} {v : View} (h : s.editor.views.get? view = some v)
    (steps : List Step) (failure : Option String) :
    ∃ r, ((Step.withCurrent view steps failure).take s).1 =
      .nested (takeUntilFailure steps (s.edit fun e => { e with current := some view })).1 r := by
  rw [Step.take]
  simp only [Act.run_withCurrent h]
  exact ⟨_, rfl⟩

theorem outcome_withCurrent_of_dead {view : ViewId} (h : s.editor.views.get? view = none)
    (steps : List Step) (failure : Option String) :
    ((Step.withCurrent view steps failure).take s).1 = .nested [] (.error (.noLiveView view)) := by
  rw [Step.take]
  simp only [Act.run_withCurrent_of_dead h]

end Session

theorem allPerformed_nil (steps : List Step) : allPerformed steps [] = [] := by
  cases steps <;> rfl

mutual

/-- The outcome of a step tells the answers to the operations performed in it. -/
theorem Step.performed_eq (step : Step) (s : Session) :
    step.performed (step.take s).1 = (step.starts s).map Session.answered := by
  cases step with
  | op o => rfl
  | withCurrent view steps failure =>
      cases hv : s.editor.views.get? view with
      | none =>
          rw [Session.outcome_withCurrent_of_dead hv, Step.performed, Step.starts,
            Editor.view_of_dead hv]
          exact allPerformed_nil steps
      | some v =>
          obtain ⟨r, houtcome⟩ := Session.outcome_withCurrent hv steps failure
          rw [houtcome, Step.performed, Step.starts, Editor.view_of_get hv]
          exact performed_untilFailure steps _

theorem performed_untilFailure (steps : List Step) (s : Session) :
    allPerformed steps (takeUntilFailure steps s).1 =
      (startsUntilFailure steps s).map Session.answered := by
  cases steps with
  | nil => rfl
  | cons step steps =>
      have hstep := Step.performed_eq step s
      rw [takeUntilFailure, startsUntilFailure]
      cases hr : (step.take s).1.result with
      | error e =>
          simp only [hr]
          rw [allPerformed, allPerformed_nil, List.append_nil, hstep]
      | ok reply =>
          simp only [hr]
          rw [allPerformed, hstep, performed_untilFailure steps _, List.map_append]

end

theorem performed_all (steps : List Step) (s : Session) :
    allPerformed steps (takeAll steps s).1 = (runStarts steps s).map Session.answered := by
  induction steps generalizing s with
  | nil => rfl
  | cons step steps ih => rw [takeAll, allPerformed, runStarts, step.performed_eq, ih,
      List.map_append]

namespace Op

/-- The number of the overlay that an operation made, if it made one. -/
def overlayMade : Op × Except Error Reply → Option OverlayId
  | (makeOverlay .., .ok (.number id)) => some id
  | _ => none

end Op

namespace Act

/-- A view is made with the next number, or nothing changes. -/
theorem createIndirect_cases (base : ViewId) (name : String) (s : Session) :
    (∃ e, (createIndirect base name).run s = (.error e, s)) ∨
      ∃ v : View, (createIndirect base name).run s =
        (.ok s.editor.nextView, s.edit (·.addIndirect base v.markers name)) := by
  simp only [createIndirect, run_bind, run_get]
  cases hv : s.editor.views.get? base with
  | none => exact Or.inl ⟨_, rfl⟩
  | some v =>
      cases hb : v.base.isSome with
      | true => exact Or.inl ⟨.baseIndirect base, by simp [hb]⟩
      | false =>
          cases hd : s.editor.document base with
          | error e => exact Or.inl ⟨e, by simp [hb, run_bind, hd]⟩
          | ok d => exact Or.inr ⟨v, by simp [hb, run_bind, hd]; rfl⟩

/-- Only making an overlay takes a number for overlays. -/
theorem respects_nextOverlay (o : Op)
    (ho : ∀ view p q front rear, o ≠ .makeOverlay view p q front rear) :
    Respects (Editor.Within (Editor.Same Editor.nextOverlay)) o.act := by
  refine o.respects fun heffect => ?_
  cases o with
  | makeOverlay view p q front rear => exact ho view p q front rear rfl
  | _ => cases heffect

end Act

/-! ## Counting what is made -/

namespace Session

variable {s t u : Session} {ops later : List (Op × Except Error Reply)}
  {starts : List (Session × Op)} {passed : List Session}
  {next : Editor → Nat} {given : Op × Except Error Reply → Option Nat}

/-- Each operation gives out the next number or none, and the view that is current does not
matter. -/
structure Counts (next : Editor → Nat) (given : Op × Except Error Reply → Option Nat) : Prop where
  current : ∀ (e : Editor) (view : Option ViewId), next { e with current := view } = next e
  op : ∀ (s : Session) (o : Op),
    given (answered (s, o)) = none ∧ next (s.after o).editor = next s.editor ∨
      given (answered (s, o)) = some (next s.editor) ∧
        next (s.after o).editor = next s.editor + 1

/-- On the way from one session to another, operations have given out the numbers in between. -/
def Gives (next : Editor → Nat) (given : Op × Except Error Reply → Option Nat) (s : Session)
    (ops : List (Op × Except Error Reply)) (t : Session) : Prop :=
  ∃ k, ops.filterMap given = List.range' (next s.editor) k ∧ next t.editor = next s.editor + k

theorem Gives.trans (h : Gives next given s ops t) (h' : Gives next given t later u) :
    Gives next given s (ops ++ later) u := by
  obtain ⟨k, hops, ht⟩ := h
  obtain ⟨m, hlater, hu⟩ := h'
  refine ⟨k + m, ?_, by rw [hu, ht, Nat.add_assoc]⟩
  rw [List.filterMap_append, hops, hlater, ht, List.range'_append_1]

theorem Gives.of_eq (h : next t.editor = next s.editor) : Gives next given s [] t :=
  ⟨0, rfl, h⟩

namespace Counts

variable (hc : Counts next given)
include hc

theorem switch (h : s.Switches t) : next t.editor = next s.editor := by
  rcases h with rfl | ⟨view, v, -, rfl⟩
  · rfl
  · exact hc.current _ _

theorem gives (s : Session) (o : Op) : Gives next given s [answered (s, o)] (s.after o) := by
  rcases hc.op s o with ⟨hnone, heq⟩ | ⟨hsome, heq⟩
  · exact ⟨0, by rw [List.filterMap_cons_none hnone]; rfl, heq⟩
  · exact ⟨1, by rw [List.filterMap_cons_some hsome]; rfl, heq⟩

theorem walk (h : s.Walk starts passed t) : Gives next given s (starts.map answered) t := by
  induction h with
  | rest => exact .of_eq rfl
  | op _ o ih =>
      rw [List.map_append]
      exact ih.trans (hc.gives _ o)
  | switch _ ht ih =>
      rw [← List.append_nil (List.map answered _)]
      exact ih.trans (.of_eq (hc.switch ht))

/-- In a run, numbers are given out one after the other. -/
theorem run (steps : List Step) (s : Session) (h : s.AtRest) :
    Gives next given s (allPerformed steps (takeAll steps s).1) (takeAll steps s).2 := by
  rw [performed_all]
  exact hc.walk (walk_all steps s h)

end Counts

theorem counts_overlays : Counts Editor.nextOverlay Op.overlayMade where
  current _ _ := rfl
  op s o := by
    by_cases ho : ∃ view p q front rear, o = .makeOverlay view p q front rear
    · obtain ⟨view, p, q, front, rear, rfl⟩ := ho
      rw [answered, after, Op.act, Act.run_map, Act.makeOverlay, Act.run_bind, Act.run_ask]
      cases hroot : s.editor.rootOf view with
      | error e => exact Or.inl ⟨rfl, rfl⟩
      | ok root =>
          simp only
          rw [Act.run_bind, Act.run_ask]
          cases hd : s.editor.document root with
          | error e => exact Or.inl ⟨rfl, rfl⟩
          | ok d => exact Or.inr ⟨rfl, rfl⟩
    · have hsame := Act.respects_nextOverlay o fun view p q front rear heq =>
        ho ⟨view, p, q, front, rear, heq⟩
      refine Or.inl ⟨?_, hsame s⟩
      cases o with
      | makeOverlay view p q front rear => exact absurd ⟨view, p, q, front, rear, rfl⟩ ho
      | _ => rfl

/-- What is made in a run from the start has just the numbers below the next one. -/
theorem Counts.made_eq (hc : Counts next given) (limits : Limits) (locks : Option LockProtocol)
    (steps : List Step) (hfresh : next (fresh limits locks).editor = 0) :
    (allPerformed steps (takeAll steps (fresh limits locks)).1).filterMap given =
      List.range (next (takeAll steps (fresh limits locks)).2.editor) := by
  obtain ⟨k, hmade, hnext⟩ := hc.run steps _ (fresh_atRest limits locks)
  rw [hmade, hnext, hfresh, Nat.zero_add, List.range_eq_range']

theorem overlaysMade_eq (limits : Limits) (locks : Option LockProtocol) (steps : List Step) :
    (allPerformed steps (takeAll steps (fresh limits locks)).1).filterMap Op.overlayMade =
      List.range (takeAll steps (fresh limits locks)).2.editor.nextOverlay :=
  counts_overlays.made_eq limits locks steps rfl

end Session

end Editing
