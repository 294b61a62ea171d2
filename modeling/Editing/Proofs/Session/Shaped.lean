import Editing.Proofs.History.Shaping
import Editing.Proofs.Session.Issuing
import Editing.Proofs.Session.Logged

/-!
# The undo logs of a session are in normal form

Every change of a text leaves a record with some text, and every operation closes groups, cuts logs
or empties them. So the records of every text are in normal form, during an undo too, and its cursor
goes on behind a boundary.
-/

namespace Editing

/-- The normal form of an undo log: the records are in normal form, and a cursor that names a record
goes on with a change right behind a boundary. -/
structure UndoLog.Normal (l : UndoLog) : Prop where
  records : Record.Normal l.records
  cursor : ∀ i, l.cursor = .resume i → ∃ newer b r older,
    l.chain = newer ++ (b, .boundary) :: (i, r) :: older ∧ r ≠ .boundary

theorem UndoLog.Step.normal {l m : UndoLog} (hstep : l.Step m) (hl : l.WellFormed)
    (h : Record.Normal l.records) : Record.Normal m.records := by
  cases hstep with
  | boundary => exact hl.normal_boundary h
  | disable => exact Record.normal_nil
  | enable =>
      cases harena : l.arena with
      | none =>
          rw [UndoLog.enable, harena]
          exact Record.normal_nil
      | some a =>
          rw [UndoLog.enable, harena]
          exact h
  | clear =>
      rw [UndoLog.records_clear]
      exact Record.normal_nil
  | advance =>
      rw [UndoLog.records_nextGroup]
      exact hl.normal_boundary h
  | truncate limits => exact hl.normal_truncate h limits

namespace Document

variable {d : Document}

/-- A change within the text that is not void leaves a record that is not. -/
theorem normal_apply (hl : d.log.WellFormed) (h : Record.Normal d.log.records) {c : Change}
    (hrange : c.rangeError d.length = none) (hvoid : c.isVoid = false) :
    Record.Normal (d.apply c).log.records := by
  cases c with
  | insert pos text =>
      change Record.Normal (d.log.recordInsert pos text.length).records
      rw [hl.records_recordInsert]
      split
      · refine h.addInsert (List.length_pos_iff.mpr fun hempty => ?_)
        rw [Change.isVoid, hempty] at hvoid
        cases hvoid
      · exact h
  | delete start stop =>
      change Record.Normal (d.log.record (d.deletionRecord start stop)).records
      rw [hl.records_record]
      split
      · obtain ⟨hstart, hstop⟩ := Change.delete_le hrange
        have hne : start ≠ stop := fun heq => by
          rw [Change.isVoid, heq, beq_self_eq_true] at hvoid
          cases hvoid
        have hlength : (d.text.slice start stop).length = stop - start := by
          rw [Text.length_slice, Nat.min_eq_left (show stop ≤ d.text.length from hstop)]
        have hsolid : (d.text.slice start stop).isEmpty = false := by
          rw [List.isEmpty_eq_false_iff, ← List.length_pos_iff, hlength]
          omega
        exact h.cons (.inl Record.noConfusion) hsolid fun _ _ => trivial
      · exact h
  | property start stop key value =>
      change Record.Normal (d.log.record (.property start stop key value)).records
      rw [hl.records_record]
      split
      · exact h.cons (.inl Record.noConfusion) rfl fun _ _ => trivial
      · exact h

theorem normal_turn (hl : d.log.WellFormed) (h : Record.Normal d.log.records) {c : Document}
    (hturn : d.Turn c) : Record.Normal c.log.records := by
  cases hturn with
  | kept halike => exact halike.log ▸ h
  | changed halike change hrange hvoid halike' =>
      rw [halike'.log]
      exact normal_apply (halike.log ▸ hl) (halike.log ▸ h) hrange hvoid
  | stepped htext hlog => exact hlog.normal hl h

theorem normal_turning :
    Turning (fun _ => True) fun d => Record.Normal d.log.records where
  empty c _ hlog := by
    rw [hlog]
    exact Record.normal_nil
  turn hl hturn _ h := normal_turn hl h hturn
  begun _ h := h
  ended d hl h := hl.endReplay.normal_boundary h
  rewound _ _ h := h

end Document

namespace Session

variable {s : Session} {root : ViewId} {d : Document}

theorem Reachable.sound (h : s.Reachable) (hd : s.editor.documents.get? root = some d) :
    d.log.Sound := by
  obtain ⟨noted, cursor, steps, ho, -, hrun⟩ := h.issues root d hd
  obtain ⟨-, noted', hmirrors⟩ := LogState.Mirrors.start.run ho
  have hsound := hmirrors.sound
  rwa [hrun] at hsound

/-- The undo log of every text of a reachable session is in normal form: its oldest record is not a
boundary, no two boundaries lie side by side, no insertion and no deletion is without text, no
insertion goes on where the one below it ends, and a cursor that names a record names a change right
behind a boundary. So every boundary has a group behind it, and the groups are as many as the
boundaries, with one more if the newest record is there and not a boundary. -/
theorem logs_in_normal_form (h : s.Reachable) (hd : s.editor.documents.get? root = some d) :
    d.log.Normal ∧
      (∀ newer older, d.log.records = newer ++ .boundary :: older →
        ∃ r rest, older = r :: rest ∧ r ≠ .boundary) ∧
      d.log.groupCount = d.log.records.countP Record.isBoundary +
        if d.log.records.head?.any fun r => !r.isBoundary then 1 else 0 := by
  have hrecords : Record.Normal d.log.records := Document.normal_turning.reachable h root d hd
  refine ⟨⟨hrecords, fun i hi => ?_⟩, fun newer older hsplit => ?_, hrecords.countGroups_eq.1⟩
  · have hholds := (h.sound hd).holds
    rwa [hi] at hholds
  · rw [hsplit] at hrecords
    exact hrecords.exists_behind

/-- Two insertions that are merged, a deletion and a third insertion, in groups of their own, of
which the newest one is undone. -/
def undoneOnce : List Op :=
  [.createRoot "v", .insert 0 "ab".toList, .insert 0 ['c'], .closeGroup 0, .deleteRegion 0 0 1,
    .closeGroup 0, .insert 0 ['x'], .closeGroup 0, .undo 0]

theorem undoneOnce_in_normal_form :
    let s := (fresh .default none).afterAll undoneOnce
    s.Reachable ∧ ∃ d, s.editor.documents.get? 0 = some d ∧ d.log.Normal ∧
      d.log.records = [.boundary, .delete 2 ['x'] [], .boundary, .insert 2 1, .boundary,
        .delete 0 ['a'] [], .boundary, .insert 0 3] ∧
      d.log.cursor = .resume 2 ∧ d.log.groupCount = 4 := by
  intro s
  have hreachable : s.Reachable := (Reachable.fresh .default none).afterAll undoneOnce
  have hlog : ((s.editor.documents.get? 0).map fun d => (d.log.records, d.log.cursor)) =
      some ([.boundary, .delete 2 ['x'] [], .boundary, .insert 2 1, .boundary,
        .delete 0 ['a'] [], .boundary, .insert 0 3], .resume 2) := by
    decide +kernel
  obtain ⟨d, hd, heq⟩ := Option.map_eq_some_iff.mp hlog
  obtain ⟨hrecords, hcursor⟩ := Prod.mk.inj heq
  obtain ⟨hnormal, -, hcount⟩ := logs_in_normal_form hreachable hd
  refine ⟨hreachable, d, hd, hnormal, hrecords, hcursor, ?_⟩
  rw [hcount, hrecords]
  rfl

end Session

end Editing
