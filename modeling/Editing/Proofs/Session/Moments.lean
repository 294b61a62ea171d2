import Editing.Proofs.Session.Undone

/-!
# Moments

A run passes through many sessions: every operation leads to one, an undo passes through one for
each record that it takes back, and so does each change of the view that is current while steps are
taken. A run is a walk made of operations and of such changes, and what relates each moment to the
next one is read off the walk.
-/

namespace Editing

/-- The sessions after each record that is taken back, up to the first that is not. -/
def Session.stages (view root : ViewId) : List Record → Session → List Session
  | [], _ => []
  | r :: rs, s =>
      match (Act.replay view root r).run s with
      | (.ok _, t) => t :: stages view root rs t
      | (.error _, t) => [t]

/-- The sessions that an undo passes through before it ends: the next group is taken, the log begins
to replay, and the records of the group are taken back. -/
def Session.passages (s : Session) (view : ViewId) : List Session :=
  match s.editor.undoEnabled view, s.editor.rootOf view with
  | .ok true, .ok root =>
      match (Act.takeGroup root).run s with
      | (.error _, t) => [t]
      | (.ok group, t) =>
          let begun := ((Act.changeLog root UndoLog.beginReplay).run t).2
          t :: begun :: stages view root group begun
  | _, _ => []

/-- The sessions that an operation passes through, the last of which it leads to. -/
def Session.moments (s : Session) : Op → List Session
  | .undo view => s.passages view ++ [s.after (.undo view)]
  | o => [s.after o]

mutual

/-- The sessions that a step passes through. -/
def Step.moments : Step → Session → List Session
  | .op o, s => s.moments o
  | .withCurrent view steps failure, s =>
      match s.editor.view view with
      | .error _ => []
      | .ok _ =>
          let inside := s.edit fun e => { e with current := some view }
          inside :: (momentsUntilFailure steps inside ++
            [((Step.withCurrent view steps failure).take s).2])

/-- The sessions that steps pass through, up to the first step that fails. -/
def momentsUntilFailure : List Step → Session → List Session
  | [], _ => []
  | step :: steps, s =>
      match (step.take s).1.result with
      | .error _ => step.moments s
      | .ok _ => step.moments s ++ momentsUntilFailure steps (step.take s).2

end

/-- The sessions that a run passes through. -/
def runMoments : List Step → Session → List Session
  | [], _ => []
  | step :: steps, s => step.moments s ++ runMoments steps (step.take s).2

mutual

/-- The operations performed in a step, with the sessions that they start in. -/
def Step.starts : Step → Session → List (Session × Op)
  | .op o, s => [(s, o)]
  | .withCurrent view steps _, s =>
      match s.editor.view view with
      | .error _ => []
      | .ok _ => startsUntilFailure steps (s.edit fun e => { e with current := some view })

/-- The operations performed in steps, up to the first step that fails. -/
def startsUntilFailure : List Step → Session → List (Session × Op)
  | [], _ => []
  | step :: steps, s =>
      match (step.take s).1.result with
      | .error _ => step.starts s
      | .ok _ => step.starts s ++ startsUntilFailure steps (step.take s).2

end

/-- The operations performed in a run, with the sessions that they start in. -/
def runStarts : List Step → Session → List (Session × Op)
  | [], _ => []
  | step :: steps, s => step.starts s ++ runStarts steps (step.take s).2

namespace Session

variable {s t u : Session} {view root : ViewId} {v : View} {d : Document}
  {passed later : List Session} {starts more rest : List (Session × Op)}

/-! ## Walks -/

/-- Another live view has become current, or nothing has changed. -/
def Switches (s t : Session) : Prop :=
  t = s ∨ ∃ view v, s.editor.views.get? view = some v ∧
    t = s.edit fun e => { e with current := some view }

theorem Switches.leads (h : s.Switches t) : s.Leads t := by
  rcases h with heq | ⟨view, v, hv, heq⟩
  · exact .of_eq heq
  · exact heq ▸ .of_move (.setCurrent hv)

theorem after_mem_moments (s : Session) (o : Op) : s.after o ∈ s.moments o := by
  cases o with
  | undo view => exact List.mem_concat_self
  | _ => exact List.mem_singleton_self _

/-- Operations lead from one session to another, with changes of the current view between them. The
lists hold the operations with the sessions they start in, and the sessions passed through. -/
inductive Walk (s : Session) : List (Session × Op) → List Session → Session → Prop
  | rest : Walk s [] [] s
  | op {t : Session} {starts : List (Session × Op)} {passed : List Session}
      (h : Walk s starts passed t) (o : Op) :
      Walk s (starts ++ [(t, o)]) (passed ++ t.moments o) (t.after o)
  | switch {t u : Session} {starts : List (Session × Op)} {passed : List Session}
      (h : Walk s starts passed t) (ht : t.Switches u) : Walk s starts (passed ++ [u]) u

namespace Walk

theorem trans (h : s.Walk starts passed t) (h' : t.Walk more later u) :
    s.Walk (starts ++ more) (passed ++ later) u := by
  induction h' with
  | rest =>
      rw [List.append_nil, List.append_nil]
      exact h
  | op _ o ih =>
      rw [← List.append_assoc, ← List.append_assoc]
      exact ih.op o
  | switch _ ht ih =>
      rw [← List.append_assoc]
      exact ih.switch ht

theorem atRest (h : s.Walk starts passed t) (hs : s.AtRest) : t.AtRest := by
  induction h with
  | rest => exact hs
  | op _ o ih => exact ih.after o
  | switch _ ht ih => exact ht.leads.atRest ih

/-- A walk ends at the last session passed through, or where it starts. -/
theorem end_mem (h : s.Walk starts passed t) : t ∈ s :: passed := by
  cases h with
  | rest => exact List.mem_cons_self
  | op _ o => exact List.mem_cons_of_mem _ (List.mem_append_right _ (after_mem_moments _ o))
  | switch _ _ => exact List.mem_cons_of_mem _ List.mem_concat_self

/-- The sessions in which the operations start have been passed. -/
theorem start_mem (h : s.Walk starts passed t) {x : Session × Op} (hx : x ∈ starts) :
    x.1 ∈ s :: passed := by
  have hmore : ∀ {passed later : List Session}, x.1 ∈ s :: passed → x.1 ∈ s :: (passed ++ later) :=
    fun hmem => List.mem_append_left _ hmem
  induction h with
  | rest => cases hx
  | op h o ih =>
      rcases List.mem_append.mp hx with hx | hx
      · exact hmore (ih hx)
      · rw [List.mem_singleton.mp hx]
        exact List.mem_append_left _ h.end_mem
  | switch _ _ ih => exact hmore (ih hx)

/-- A walk passes the sessions that its operations pass. -/
theorem moments_mem (h : s.Walk starts passed t) {o : Op} (hx : (u, o) ∈ starts) :
    ∀ r ∈ u.moments o, r ∈ passed := by
  induction h with
  | rest => cases hx
  | op _ o' ih =>
      intro r hr
      rcases List.mem_append.mp hx with hx | hx
      · exact List.mem_append_left _ (ih hx r hr)
      · cases List.mem_singleton.mp hx
        exact List.mem_append_right _ hr
  | switch _ _ ih => exact fun r hr => List.mem_append_left _ (ih hx r hr)

/-- A walk has passed the session in which one of its operations starts. -/
theorem cut {r : Session} {o : Op} (h : s.Walk starts passed t)
    (hsplit : starts = more ++ (r, o) :: rest) : ∃ passed, s.Walk more passed r := by
  induction h generalizing rest with
  | rest => exact absurd hsplit (by simp)
  | op h o' ih =>
      rcases List.eq_nil_or_concat rest with rfl | ⟨rest, x, rfl⟩
      · obtain ⟨rfl, hlast⟩ := List.append_inj' hsplit rfl
        cases hlast
        exact ⟨_, h⟩
      · rw [List.concat_eq_append, ← List.cons_append, ← List.append_assoc] at hsplit
        exact ih (List.append_inj' hsplit rfl).1
  | switch _ _ ih => exact ih hsplit

/-- An operation of a walk starts in a session that the walk leads to. -/
theorem exists_to_start (h : s.Walk starts passed t) {o : Op} (hx : (u, o) ∈ starts) :
    ∃ starts passed, s.Walk starts passed u := by
  obtain ⟨more, rest, hsplit⟩ := List.append_of_mem hx
  obtain ⟨passed, hcut⟩ := h.cut hsplit
  exact ⟨more, passed, hcut⟩

/-- What is left of a walk after one of its operations. -/
theorem rest_of {r : Session} {o : Op} (h : s.Walk starts passed t)
    (hsplit : starts = more ++ (r, o) :: rest) : ∃ passed, (r.after o).Walk rest passed t := by
  induction h generalizing rest with
  | rest => exact absurd hsplit (by simp)
  | op _ o' ih =>
      rcases List.eq_nil_or_concat rest with rfl | ⟨rest, x, rfl⟩
      · obtain ⟨-, hlast⟩ := List.append_inj' hsplit rfl
        cases hlast
        exact ⟨[], .rest⟩
      · rw [List.concat_eq_append, ← List.cons_append, ← List.append_assoc] at hsplit
        obtain ⟨hfront, hlast⟩ := List.append_inj' hsplit rfl
        cases hlast
        obtain ⟨passed, hwalk⟩ := ih hfront
        rw [List.concat_eq_append]
        exact ⟨_, hwalk.op o'⟩
  | switch _ ht ih =>
      obtain ⟨passed, hwalk⟩ := ih hsplit
      exact ⟨_, hwalk.switch ht⟩

end Walk

theorem take_withCurrent (h : s.editor.views.get? view = some v) (steps : List Step)
    (failure : Option String) :
    ((Step.withCurrent view steps failure).take s).2 =
      (takeUntilFailure steps (s.edit fun e => { e with current := some view })).2.2.edit
        (·.restoreCurrent s.editor.current) := by
  rw [Step.take]
  simp only [Act.run_withCurrent h]
  rfl

theorem take_withCurrent_of_dead (h : s.editor.views.get? view = none) (steps : List Step)
    (failure : Option String) : ((Step.withCurrent view steps failure).take s).2 = s := by
  rw [Step.take]
  simp only [Act.run_withCurrent_of_dead h]

theorem switches_restoreCurrent (h : s.editor.WellFormed) (previous : Option ViewId) :
    s.Switches (s.edit (·.restoreCurrent previous)) := by
  rcases Act.restoreCurrent_eq h previous with heq | ⟨view, v, hv, -, heq⟩
  · left
    rw [Session.edit, heq]
  · right
    refine ⟨view, v, hv, ?_⟩
    rw [Session.edit, heq, Session.edit]

end Session

mutual

theorem Step.walk (step : Step) (s : Session) (h : s.AtRest) :
    s.Walk (step.starts s) (step.moments s) (step.take s).2 := by
  cases step with
  | op o =>
      rw [Step.starts, Step.moments, Step.take]
      exact Session.Walk.rest.op o
  | withCurrent view steps failure =>
      cases hv : s.editor.views.get? view with
      | none =>
          rw [Step.starts, Step.moments, Session.take_withCurrent_of_dead hv,
            Editor.view_of_dead hv]
          exact .rest
      | some v =>
          have hswitch : s.Switches (s.edit fun e => { e with current := some view }) :=
            Or.inr ⟨view, v, hv, rfl⟩
          have hinner := walk_untilFailure steps _ (hswitch.leads.atRest h)
          have hrest := hinner.atRest (hswitch.leads.atRest h)
          have hwalk := (Session.Walk.rest.switch hswitch).trans
            (hinner.switch (Session.switches_restoreCurrent hrest.wellFormed s.editor.current))
          rw [Step.starts, Step.moments, Editor.view_of_get hv]
          rw [← Session.take_withCurrent hv steps failure] at hwalk
          exact hwalk

theorem walk_untilFailure (steps : List Step) (s : Session) (h : s.AtRest) :
    s.Walk (startsUntilFailure steps s) (momentsUntilFailure steps s)
      (takeUntilFailure steps s).2.2 := by
  cases steps with
  | nil =>
      rw [startsUntilFailure, momentsUntilFailure, takeUntilFailure]
      exact .rest
  | cons step steps =>
      have hstep := Step.walk step s h
      rw [startsUntilFailure, momentsUntilFailure, takeUntilFailure]
      cases hr : (step.take s).1.result with
      | error e =>
          simp only [hr]
          exact hstep
      | ok reply =>
          simp only [hr]
          exact hstep.trans (walk_untilFailure steps _ (hstep.atRest h))

end

theorem walk_all (steps : List Step) (s : Session) (h : s.AtRest) :
    s.Walk (runStarts steps s) (runMoments steps s) (takeAll steps s).2 := by
  induction steps generalizing s with
  | nil => exact .rest
  | cons step steps ih =>
      have hstep := step.walk s h
      rw [runStarts, runMoments, takeAll]
      exact hstep.trans (ih _ (hstep.atRest h))

theorem runMoments_concat (os : List Op) (o : Op) (s : Session) :
    runMoments ((os ++ [o]).map .op) s =
      runMoments (os.map .op) s ++ (s.afterAll os).moments o := by
  induction os generalizing s with
  | nil => exact List.append_nil _
  | cons p os ih =>
      change s.moments p ++ runMoments ((os ++ [o]).map .op) (s.after p) = _
      rw [ih, ← List.append_assoc]
      rfl

theorem runStarts_concat (os : List Op) (o : Op) (s : Session) :
    runStarts ((os ++ [o]).map .op) s =
      runStarts (os.map .op) s ++ [(s.afterAll os, o)] := by
  induction os generalizing s with
  | nil => rfl
  | cons p os ih =>
      change (s, p) :: runStarts ((os ++ [o]).map .op) (s.after p) = _
      rw [ih]
      rfl


theorem atRest_takeAll (steps : List Step) {s : Session} (h : s.AtRest) :
    (takeAll steps s).2.AtRest :=
  (walk_all steps s h).atRest h

namespace Session

variable {s t u : Session} {view root : ViewId} {v : View} {d : Document} {rs : List Record}
  {passed later : List Session} {starts : List (Session × Op)} {R : Session → Session → Prop}

/-! ## From one moment to the next -/

/-- A session passes through some moments, each in a relation to the one before. -/
inductive Passes (R : Session → Session → Prop) : Session → List Session → Session → Prop
  | nil (s : Session) : Passes R s [] s
  | cons {s t u : Session} {passed : List Session} (h : R s t) (rest : Passes R t passed u) :
      Passes R s (t :: passed) u

theorem Passes.append (h : s.Passes R passed t) (h' : t.Passes R later u) :
    s.Passes R (passed ++ later) u := by
  induction h with
  | nil => exact h'
  | cons hf _ ih => exact .cons hf (ih h')

theorem Passes.single (h : R s t) : s.Passes R [t] t := .cons h (.nil t)

/-- A relation between sessions that moves lead from and to, and those before and after an undo
begins to replay, ends, and fails. -/
structure Passing (R : Session → Session → Prop) : Prop where
  refl : ∀ s, R s s
  leads : ∀ {s t : Session}, s.editor.WellFormed → s.Leads t → R s t
  begins : ∀ (s : Session) (root : ViewId),
    R s (s.onDocument root fun d => { d with log := d.log.beginReplay })
  ends : ∀ {s : Session} (root : ViewId), s.editor.WellFormed →
    R s (s.onDocument root Document.ended)
  halts : ∀ {s : Session} (root : ViewId) (cursor : Cursor), s.editor.WellFormed →
    R s ((s.onDocument root Document.ended).onDocument root (Document.rewound cursor))

namespace Passing

variable (hR : Passing R)
include hR

theorem stages (h : s.Replaying view v root d rs) :
    s.Passes R (stages view root rs s) ((Act.replayAll view root rs).run s).2 := by
  induction rs generalizing s d with
  | nil => exact .nil s
  | cons r rs ih =>
      have hfirst := hR.leads h.wellFormed h.leads_replay
      have hrun := Act.run_replay h
      rw [Session.stages, Act.replayAll, Act.run_bind]
      cases hvisible : r.isHidden (d.extent v.markers) with
      | true =>
          rw [hvisible, if_pos rfl] at hrun
          rw [hrun] at hfirst ⊢
          exact .single hfirst
      | false =>
          rw [hvisible, if_neg Bool.false_ne_true] at hrun
          cases hgrant : r.inverse.bind (s.hindered? root d) with
          | some refusal =>
              rw [hgrant] at hrun
              rw [hrun] at hfirst ⊢
              exact .single hfirst
          | none =>
              rw [hgrant] at hrun
              rw [hrun] at hfirst ⊢
              exact .cons hfirst (ih (h.next ⟨hvisible, hgrant⟩))

/-- The last record that an undo takes back is followed by its end. -/
theorem undone (h : s.editor.WellFormed) (hs : s.editor.Shows view v root d)
    (hd : d.log.isEnabled = true) {group : List Record}
    (hgroup : d.log.boundary.nextGroup.1 = .ok group) :
    R ((Act.replayAll view root group).run (s.onDocument root fun _ => d.begun)).2
      ((Act.undo view).run s).2 := by
  have hreplaying := replaying_begun h hs hgroup
  rw [Act.run_undo_of_group h hs hd hgroup]
  rcases hreplaying.run_replayAll with ⟨hallows, hrun⟩ |
    ⟨done, r, rest, e, t, hsplit, hallows, hblocks, hrun⟩
  · rw [hrun]
    exact hR.ends root (hreplaying.finish hallows).wellFormed
  · rw [hrun]
    refine hR.halts root _ ?_
    rw [hblocks.editor_eq]
    exact ((hsplit ▸ hreplaying).nextAll hallows).wellFormed

theorem undo (h : s.AtRest) (view : ViewId) :
    s.Passes R (s.passages view ++ [s.after (.undo view)]) (s.after (.undo view)) := by
  rw [after_undo_eq]
  rcases h.wellFormed.registry.dead_or_shows view with hdead | ⟨v, root, d, hs⟩
  · have hnone : s.passages view = [] := by
      rw [passages, Editor.undoEnabled, Editor.document_of_dead hdead]
      rfl
    rw [Act.run_undo_of_dead hdead, hnone]
    exact .single (hR.refl s)
  · obtain ⟨w, hw, -⟩ := h.wellFormed.registry.shows_root hs.document
    have htake := Act.run_takeGroup hw
    have htaken :
        R s (s.onDocument root fun c => { c with log := d.log.boundary.nextGroup.2 }) :=
      hR.leads h.wellFormed (.of_move (.log hs.document .advance))
    cases hd : d.log.isEnabled with
    | false =>
        have hnone : s.passages view = [] := by
          rw [passages, hs.undoEnabled_eq, hd]
        rw [Act.run_undo_of_disabled h.wellFormed hs hd, hnone]
        exact .single (hR.refl s)
    | true =>
        cases hgroup : d.log.boundary.nextGroup.1 with
        | error e =>
            rw [hgroup] at htake
            simp only [passages, hs.undoEnabled_eq, hd, hs.rootOf_eq, htake,
              Act.run_undo_of_exhausted h.wellFormed hs hd hgroup]
            exact .cons htaken (.single (hR.refl _))
        | ok group =>
            rw [hgroup] at htake
            simp only [passages, hs.undoEnabled_eq, hd, hs.rootOf_eq, htake, Act.run_beginReplay hw]
            have hbegun :
                R (s.onDocument root fun c => { c with log := d.log.boundary.nextGroup.2 })
                  (s.onDocument root fun _ => d.begun) := by
              have heq : s.onDocument root (fun _ => d.begun) =
                  (s.onDocument root fun c =>
                    { c with log := d.log.boundary.nextGroup.2 }).onDocument root
                      fun c => { c with log := c.log.beginReplay } := by
                rw [onDocument_onDocument]
                exact onDocument_congr hs.document rfl
              rw [heq]
              exact hR.begins _ root
            exact .cons htaken (.cons hbegun
              ((hR.stages (replaying_begun h.wellFormed hs hgroup)).append
                (.single (hR.undone h.wellFormed hs hd hgroup))))

theorem moments (h : s.AtRest) (o : Op) : s.Passes R (s.moments o) (s.after o) := by
  by_cases ho : ∃ view, o = .undo view
  · obtain ⟨view, rfl⟩ := ho
    exact hR.undo h view
  · have hleads := leads_after h.wellFormed fun view hview => ho ⟨view, hview⟩
    have hmoments : s.moments o = [s.after o] := by
      cases o with
      | undo view => exact absurd ⟨view, rfl⟩ ho
      | _ => rfl
    rw [hmoments]
    exact .single (hR.leads h.wellFormed hleads)

theorem walk (h : s.Walk starts passed t) (hs : s.AtRest) : s.Passes R passed t := by
  induction h with
  | rest => exact .nil s
  | op h o ih => exact ih.append (hR.moments (h.atRest hs) o)
  | switch h ht ih => exact ih.append (.single (hR.leads (h.atRest hs).wellFormed ht.leads))

/-- In a run, each moment is in the relation to the one before. -/
theorem run (steps : List Step) (s : Session) (h : s.AtRest) :
    s.Passes R (runMoments steps s) (takeAll steps s).2 :=
  hR.walk (walk_all steps s h) h

end Passing

/-! ## Reachable sessions -/

theorem after_setCurrent (h : s.editor.views.get? view = some v) :
    s.after (.setCurrent view) = s.edit fun e => { e with current := some view } := by
  rw [after, Op.act, Act.run_quietly, Act.setCurrent, Act.run_ask_bind (Editor.view_of_get h),
    Act.run_change]

theorem Reachable.switch (h : s.Reachable) (ht : s.Switches t) : t.Reachable := by
  rcases ht with rfl | ⟨view, v, hv, rfl⟩
  · exact h
  · rw [← after_setCurrent hv]
    exact h.after _

/-- Changes of the current view lead to sessions that operations alone lead to. -/
theorem Reachable.walk (h : s.Reachable) (hwalk : s.Walk starts passed t) : t.Reachable := by
  induction hwalk with
  | rest => exact h
  | op _ o ih => exact ih.after o
  | switch _ ht ih => exact ih.switch ht

end Session

theorem reachable_takeAll (steps : List Step) {s : Session} (h : s.Reachable) :
    (takeAll steps s).2.Reachable :=
  h.walk (walk_all steps s h.atRest)

end Editing
