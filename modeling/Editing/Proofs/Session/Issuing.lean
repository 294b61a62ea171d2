import Editing.Proofs.History.Refining
import Editing.Proofs.Session.Undone

/-!
# What sessions ask of undo logs

A session asks the log of a text for nothing but orderly steps. An undo notes the cursor and takes
a group, and until it puts the cursor back it only records changes and closes them. So the log of
every text is a plain list, whatever operations have led to it.
-/

namespace Editing

/-- The step on the log that a change makes. -/
def Document.logStep (d : Document) : Change → LogStep
  | .insert pos text => .recordInsert pos text.length
  | .delete start stop => .record (d.deletionRecord start stop)
  | .property start stop key value => .record (.property start stop key value)

namespace Document

variable {d : Document} {noted noted' : Bool} {s : LogState} {cursor : Cursor}

/-- Changes keep the cursor that was noted. -/
theorem reaches_apply (h : LogState.Reaches noted s noted' ⟨d.log, cursor⟩) (c : Change) :
    LogState.Reaches noted s noted' ⟨(d.apply c).log, cursor⟩ := by
  have hallowed : (d.logStep c).allowed noted' = true := by cases c <;> rfl
  have hnotes : (d.logStep c).notes noted' = noted' := by cases c <;> rfl
  have hstep : (LogState.step ⟨d.log, cursor⟩ (d.logStep c)).2 = ⟨(d.apply c).log, cursor⟩ := by
    cases c <;> rfl
  have hnext := h.step (d.logStep c) hallowed
  rwa [hnotes, hstep] at hnext

theorem reaches_revised (h : LogState.Reaches noted s noted' ⟨d.log, cursor⟩) (c : Change) :
    LogState.Reaches noted s noted' ⟨(d.revised c).log, cursor⟩ := by
  rw [revised]
  split
  · exact h
  · exact reaches_apply (d := { d with locked := d.locked || d.wanted.isSome }) h c

theorem reaches_replayedAll (h : LogState.Reaches noted s noted' ⟨d.log, cursor⟩)
    (point : MarkerId) (rs : List Record) :
    LogState.Reaches noted s noted' ⟨(d.replayedAll point rs).log, cursor⟩ := by
  induction rs generalizing d with
  | nil => exact h
  | cons r rs ih =>
      apply ih
      rw [log_replayed]
      cases r.inverse with
      | none => exact h
      | some c => exact reaches_revised h c

theorem issued_apply (h : d.log.Issued) (c : Change) : (d.apply c).log.Issued := by
  obtain ⟨noted, cursor, hreaches⟩ := h
  exact ⟨noted, cursor, reaches_apply hreaches c⟩

end Document

namespace UndoLog.Issued

variable {l m : UndoLog} {d : Document} {group : List Record}

theorem of_step (h : l.Issued) (hstep : l.Step m) : m.Issued := by
  cases hstep with
  | boundary => exact h.boundary
  | disable => exact h.step .disable rfl fun _ => rfl
  | enable => exact h.step .enable rfl fun _ => rfl
  | clear => exact h.step .clear rfl fun _ => rfl
  | advance => exact h.boundary.nextGroup
  | truncate limits => exact h.step (.truncate limits) rfl fun _ => rfl

/-- The steps of an undo up to its end, when the cursor that it has noted may still be put back. -/
theorem reaches_ended (h : d.log.Issued) (point : MarkerId) (done : List Record) :
    LogState.Reaches false LogState.start true
      ⟨(d.begun.replayedAll point done).ended.log, d.log.cursor⟩ := by
  obtain ⟨noted, cursor, hreaches⟩ := h.boundary
  have hbegun := (hreaches.step .nextGroup rfl).step .beginReplay rfl
  rw [← UndoLog.cursor_boundary d.log]
  exact ((Document.reaches_replayedAll (d := d.begun) hbegun point done).step .endReplay rfl).step
    .boundary rfl

end UndoLog.Issued

namespace Session

variable {s : Session}

/-- The logs of all texts are ones that orderly steps lead to. -/
def Issues (s : Session) : Prop :=
  ∀ root d, s.editor.documents.get? root = some d → d.log.Issued

theorem Leads.issues {t : Session} (hleads : s.Leads t) (h : s.Issues) : t.Issues := by
  intro root c hc
  rcases hleads.turn hc with ⟨d, hd, hturn⟩ | ⟨-, hlog⟩
  · cases hturn with
    | kept halike => exact halike.log ▸ h root d hd
    | @changed b halike change hrange hvoid halike' =>
        rw [halike'.log]
        exact Document.issued_apply (halike.log ▸ h root d hd) change
    | stepped htext hlog => exact (h root d hd).of_step hlog
  · exact hlog ▸ .empty

/-- Changing one document keeps its log one that orderly steps lead to. -/
theorem issues_onDocument {root : ViewId} {d : Document} {f : Document → Document}
    (hd : s.editor.documents.get? root = some d) (h : (f d).log.Issued)
    (hother : ∀ r c, r ≠ root → s.editor.documents.get? r = some c → c.log.Issued) :
    (s.onDocument root f).Issues := by
  intro r c hc
  by_cases hr : r = root
  · subst hr
    rw [get?_onDocument_self hd] at hc
    cases hc
    exact h
  · rw [get?_onDocument_of_ne _ hr] at hc
    exact hother r c hr hc

theorem Issues.after_undo (h : s.Issues) (hs : s.AtRest) (view : ViewId) :
    (s.after (.undo view)).Issues := by
  rw [after_undo_eq]
  rcases hs.wellFormed.registry.dead_or_shows view with hdead | ⟨v, root, d, hshows⟩
  · rw [Act.run_undo_of_dead hdead]
    exact h
  · have hissued := h root d hshows.document
    cases he : d.log.isEnabled with
    | false =>
        rw [Act.run_undo_of_disabled hs.wellFormed hshows he]
        exact h
    | true =>
        cases hgroup : d.log.boundary.nextGroup.1 with
        | error e =>
            rw [Act.run_undo_of_exhausted hs.wellFormed hshows he hgroup,
              onDocument_congr (g := fun c => { c with log := d.log.boundary.nextGroup.2 })
              hshows.document rfl]
            exact (Leads.of_move (.log hshows.document .advance)).issues h
        | ok group =>
            have hreplaying := replaying_begun hs.wellFormed hshows hgroup
            have hother : ∀ done r c, r ≠ root →
                ((s.onDocument root fun _ => d.begun).replayedAll root v d.begun
                  done).editor.documents.get? r = some c → c.log.Issued := by
              intro done r c hr hc
              rw [documents_replayedAll_of_ne hreplaying.shows done hr, get?_onDocument_of_ne _ hr]
                at hc
              exact h r c hc
            have hended := fun done => hissued.reaches_ended v.markers.point done
            rcases Act.undo_cases hs.wellFormed hshows he hgroup with
              ⟨hallows, hrun⟩ | ⟨done, r, rest, e, t, hsplit, hallows, hblocks, hrun⟩
            · rw [hrun]
              have hlast := (hreplaying.finish hallows).shows
              exact issues_onDocument hlast.document ⟨true, _, hended group⟩ (hother group)
            · rw [hrun]
              have hlast := ((hsplit ▸ hreplaying :
                (s.onDocument root fun _ => d.begun).Replaying view v root d.begun
                (done ++ r :: rest)).nextAll hallows).shows
              have hshown : t.editor.Shows view v root (d.begun.replayedAll v.markers.point done) :=
                hblocks.editor_eq.symm ▸ hlast
              -- The cursor that is put back is the one that the undo has noted.
              have hrewound : (Document.rewound d.log.cursor
                  (d.begun.replayedAll v.markers.point done).ended).log.Issued :=
                ⟨true, _, (hended done).step .rewind rfl⟩
              rw [onDocument_onDocument]
              refine issues_onDocument hshown.document hrewound fun r c hr hc => ?_
              rw [hblocks.editor_eq] at hc
              exact hother done r c hr hc

theorem Reachable.issues (h : s.Reachable) : s.Issues := by
  induction h with
  | fresh limits locks =>
      intro root d hd
      simp [Session.fresh, Session.start, Editor.empty] at hd
  | @after s o hs ih =>
      by_cases ho : ∃ view, o = .undo view
      · obtain ⟨view, rfl⟩ := ho
        exact ih.after_undo hs.atRest view
      · exact (leads_after hs.atRest.wellFormed fun view hview => ho ⟨view, hview⟩).issues ih

end Session

/-- What both logs answer and become when they are asked for the same. -/
structure LogState.Refines (s : List LogAnswer × LogState) (p : List LogAnswer × PlainState) :
    Prop where
  answers : s.1 = p.1
  plain : s.2.log.plain = p.2.log
  records : s.2.log.records = p.2.log.records
  length : s.2.log.length = p.2.log.length
  size : s.2.log.size = p.2.log.size
  accounted : s.2.log.Accounted
  during : s.2.log.isEnabled = true → ∀ actions,
    (runActions actions { s.2.log with suspended := true }).log.Accounted

theorem LogState.Mirrors.refines {noted : Bool} {s : List LogAnswer × LogState}
    {p : List LogAnswer × PlainState} (h : Mirrors noted s.2 p.2) (ha : p.1 = s.1) :
    Refines s p where
  answers := ha.symm
  plain := h.plain.symm
  records := by rw [h.plain, UndoLog.records_plain]
  length := by rw [h.plain, h.sound.wellFormed.length_plain]
  size := by rw [h.plain, UndoLog.size_plain]
  accounted := h.sound.accounted
  during he actions := (h.sound.during he actions).accounted

/-- Orderly steps give the same answers on an undo log as on a plain list, and leave the same
records and the cursor that the mark stands for. All slots are accounted for after each of them, and
while a handler runs, and a cursor names a change that is linked. The log of every text is one that
orderly steps lead to. -/
theorem UndoLog.refines_plain_list :
    (∀ steps, LogStep.Orderly false steps →
      LogState.Refines (LogState.start.run steps) (PlainState.start.run steps)) ∧
    ∀ s : Session, s.Reachable → ∀ root d, s.editor.documents.get? root = some d →
      ∃ steps, LogStep.Orderly false steps ∧ (LogState.start.run steps).2.log = d.log := by
  constructor
  · intro steps ho
    obtain ⟨hanswers, noted, hmirrors⟩ := LogState.Mirrors.start.run ho
    exact hmirrors.refines hanswers
  · intro s hs root d hd
    obtain ⟨noted, cursor, steps, ho, -, hrun⟩ := hs.issues root d hd
    exact ⟨steps, ho, by rw [hrun]⟩

/-- Two groups, of which the older one is cut off. Its slots are used again, by an insertion that is
merged and for its boundary, and then an undo is given up, so that the cursor is put back. -/
def LogStep.reusing : List LogStep :=
  [.recordInsert 0 3, .boundary, .record (.delete 1 "bc".toList []), .boundary,
    .truncate ⟨10, 20, none, none, by decide⟩, .recordInsert 1 1, .recordInsert 2 2, .boundary,
    .nextGroup, .beginReplay, .record (.delete 1 "xyz".toList []), .endReplay, .boundary, .rewind]

theorem UndoLog.reusing_refines :
    LogStep.Orderly false LogStep.reusing ∧
      (LogState.start.run LogStep.reusing).2.log.records =
        [.boundary, .delete 1 "xyz".toList [], .boundary, .insert 1 3, .boundary,
          .delete 1 "bc".toList []] ∧
      (LogState.start.run LogStep.reusing).2.log.Accounted ∧
      ∃ steps, LogStep.Orderly false steps ∧
        (LogState.start.run steps).2.log.records = [.insert 0 2] := by
  let s := (Session.fresh .default none).afterAll [.createRoot "v", .insert 0 "ab".toList]
  have hs : s.Reachable := (Session.Reachable.fresh .default none).afterAll _
  have horderly : LogStep.Orderly false LogStep.reusing := by decide
  have hsome : ((s.editor.documents.get? 0).map fun d => d.log.records) = some [.insert 0 2] := by
    decide +kernel
  obtain ⟨d, hd, hrecords⟩ := Option.map_eq_some_iff.mp hsome
  obtain ⟨hruns, hlogs⟩ := refines_plain_list
  have hrefines := hruns LogStep.reusing horderly
  obtain ⟨steps, ho, hlog⟩ := hlogs s hs 0 d hd
  refine ⟨horderly, ?_, hrefines.accounted, steps, ho, by rw [hlog, hrecords]⟩
  rw [hrefines.records]
  decide

end Editing
