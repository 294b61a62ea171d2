import Editing.Proofs.Session.Confining
import Editing.Proofs.Session.Returning
import Editing.Proofs.Session.Revising

/-!
# Single changes taken back

When the newest group is closed, a change of the accessible part of a view leaves a group with one
record, which lies in the accessible part. So an undo through the view takes the record back,
whether the view is narrowed or read-only, and the text is what it was.
-/

namespace Editing

namespace Document

variable {d : Document} {ids : ViewMarkers}

/-- The record of a change. -/
def recorded (d : Document) : Change → Record
  | .insert pos text => .insert pos text.length
  | .delete start stop => d.deletionRecord start stop
  | .property start stop key value => .property start stop key value

/-- What is recorded next after a group was closed stands alone. -/
theorem records_apply (hl : d.log.WellFormed) (ha : d.log.acceptsRecords = true)
    (hd : d.IsClosed) (c : Change) : (d.apply c).log.records = d.recorded c :: d.log.records := by
  cases c with
  | insert pos text =>
      have hrecords := hl.records_recordInsert pos text.length
      rw [ha, if_pos rfl] at hrecords
      rcases Record.addInsert_append [] hd pos text.length with ⟨_, _, _, hnil, -⟩ | hadd
      · cases hnil
      · exact hrecords.trans hadd
  | delete start stop => exact (hl.records_record _).trans (if_pos ha)
  | property start stop key value => exact (hl.records_record _).trans (if_pos ha)

theorem since_apply (hl : d.log.WellFormed) (ha : d.log.acceptsRecords = true)
    (hr : d.log.replaying = false) (hd : d.IsClosed) {c : Change}
    (hrange : c.rangeError d.length = none) : d.Since (d.apply c) [d.recorded c] := by
  obtain ⟨news, hsince, -⟩ := (Since.refl hl ha hr).apply hd hrange
  have hrecords := hsince.trail.records.symm.trans (records_apply hl ha hd c)
  obtain rfl : news = [d.recorded c] := List.append_cancel_right hrecords
  exact hsince

/-- What is inserted at point lies in the accessible part afterwards. -/
theorem visible_insert {v : View} (hs : d.Seats v.markers) {text : Text}
    (hvoid : (Change.insert (d.extent v.markers).point text).isVoid = false) :
    (d.recorded (.insert (d.extent v.markers).point text)).isHidden
      ((d.revised (.insert (d.extent v.markers).point text)).extent v.markers) = false := by
  have hextent : (d.revised (.insert (d.extent v.markers).point text)).extent v.markers =
      (d.insert (d.extent v.markers).point text).extent v.markers := by
    rw [revised, hvoid, if_neg Bool.false_ne_true]
    rfl
  rw [hextent, Act.extent_insert hs]
  simp only [recorded, Record.isHidden, Record.bounds, Bool.or_eq_false_iff,
    decide_eq_false_iff_not, Nat.not_lt]
  exact ⟨hs.low_le, Nat.add_le_add_right hs.le_high text.length⟩

/-- The place of what is deleted from the accessible part stays in it. -/
theorem visible_delete (hs : d.Seats ids) {start stop : Nat} (hlow : (d.extent ids).low ≤ start)
    (hle : start ≤ stop) (hhigh : stop ≤ (d.extent ids).high) :
    (d.recorded (.delete start stop)).isHidden
      ((d.revised (.delete start stop)).extent ids) = false := by
  obtain ⟨hlow, hhigh⟩ := extent_revised_delete hs hlow hle hhigh
  simp only [recorded, deletionRecord, Record.isHidden, Record.bounds, Bool.or_eq_false_iff,
    decide_eq_false_iff_not, Nat.not_lt]
  exact ⟨hlow, hhigh⟩

end Document

namespace Session

/-- The next undo through the view finds one record, which is accessible, and gives the text back
when it takes the record back. -/
structure Retracts (s : Session) (view : ViewId) (v : View) (root : ViewId) (d : Document)
    (r : Record) (text : Text) : Prop where
  shows : s.editor.Shows view v root d
  enabled : d.log.isEnabled = true
  groups : ∃ older, Record.groups d.log.remaining = [r] :: older
  visible : r.isHidden (d.extent v.markers) = false
  reverts : r.revert d.text = text

variable {s t : Session} {view root : ViewId} {v : View} {d b : Document} {c : Change} {r : Record}
  {text : Text}

/-- A change after a group was closed can be taken back alone. -/
theorem Amended.retracts (h : s.Amended view v root d c t b) (hrest : s.AtRest)
    (he : d.log.isEnabled = true) (hd : d.IsClosed) (hlog : b.log = (d.revised c).log)
    (hchanged : b.text ≠ d.text)
    (hvisible : c.isVoid = false →
      (d.recorded c).isHidden ((d.revised c).extent v.markers) = false) :
    t.Retracts view v root b (d.recorded c) d.text := by
  have hdocument := h.shows.document
  have haccepts := hrest.accepts hdocument he
  have hmarking := hrest.wellFormed.marking
  have hlow := h.low_eq hmarking h.shows.live
  have hhigh := h.high_eq hmarking h.shows.live
  have htext := h.text
  have hvoid : c.isVoid = false := by
    refine Bool.eq_false_iff.mpr fun hvoid => hchanged ?_
    rw [htext, Document.revised, if_pos hvoid]
  have hsince : Document.Since { d with locked := d.locked || d.wanted.isSome } (d.revised c)
      [d.recorded c] := by
    have happly := Document.since_apply (d := { d with locked := d.locked || d.wanted.isSome })
      (hrest.wellFormed.admits hdocument).log haccepts
      (hrest.idle root d hdocument) hd h.range
    rw [Document.revised, hvoid, if_neg Bool.false_ne_true]
    cases c <;> exact happly
  refine ⟨h.showing, ?_, ⟨Record.groups d.log.records, ?_⟩, ?_, ?_⟩
  · rw [hlog, Document.isEnabled_revised, he]
  · rw [hlog]
    exact hsince.groups_remaining hd (List.cons_ne_nil _ _)
  · have hseen := hvisible hvoid
    rw [Record.isHidden] at hseen ⊢
    rw [hlow, hhigh]
    exact hseen
  · rw [htext]
    exact hsince.trail.text

namespace Retracts

/-- Making the view read-only does not matter. -/
theorem setReadOnly (h : s.Retracts view v root d r text) (flag : Bool) :
    (s.edit fun e => { e with views := e.views.modify view fun v =>
      { v with readOnly := flag } }).Retracts view { v with readOnly := flag } root d r text where
  shows := by
    refine ⟨?_, h.shows.root_eq, h.shows.document⟩
    rw [editor_edit]
    simp only [Table.get?_modify, if_pos, h.shows.live, Option.map_some]
  enabled := h.enabled
  groups := h.groups
  visible := h.visible
  reverts := h.reverts

/-- Closing the group does not matter. -/
theorem closeGroup (h : s.Retracts view v root d r text) (hw : s.editor.WellFormed) :
    (s.after (.closeGroup view)).Retracts view v root { d with log := d.log.boundary } r text := by
  rw [after_closeGroup h.shows]
  refine ⟨shows_onDocument_self h.shows _, ?_, ?_, h.visible, h.reverts⟩
  · rw [UndoLog.isEnabled_boundary, h.enabled]
  · rw [(hw.admits h.shows.document).log.groups_boundary]
    exact h.groups

/-- The undo succeeds without a protocol for locks. -/
theorem undo (h : s.Retracts view v root d r text) (hw : s.editor.WellFormed)
    (hlocks : s.locks = none) :
    ∃ t c, (Act.undo view).run s = (.ok (), t) ∧ t.editor.Shows view v root c ∧ c.text = text := by
  obtain ⟨older, hgroups⟩ := h.groups
  have hgroup :=
    (hw.admits h.shows.document).log.nextGroup_of_groups h.enabled hgroups
  have hreplaying := replaying_begun hw h.shows hgroup
  rcases Act.undo_cases hw h.shows h.enabled hgroup with
    ⟨hallows, hrun⟩ | ⟨done, q, rest, e, t, hsplit, -, hblocks, -⟩
  · refine ⟨_, _, hrun, shows_onDocument_self (hreplaying.finish hallows).shows _, ?_⟩
    exact (Document.text_undone d v.markers.point [r]).trans h.reverts
  · -- The first record is the only one, and nothing stands in its way.
    obtain ⟨rfl, rfl, rfl⟩ : done = [] ∧ q = r ∧ rest = [] := by
      cases done with
      | nil =>
          obtain ⟨hr, hrest⟩ := List.cons.inj hsplit
          exact ⟨rfl, hr.symm, hrest.symm⟩
      | cons x done =>
          have hlength := congrArg List.length hsplit
          simp only [List.length_cons, List.length_append, List.length_nil] at hlength
          omega
    cases hblocks with
    | hidden hhidden => exact absurd (h.visible.symm.trans hhidden) Bool.false_ne_true
    | refused _ hrefused =>
        obtain ⟨c, -, hhindered⟩ := Option.bind_eq_some_iff.mp hrefused
        have hnone : (s.onDocument root fun _ => d.begun).hindered? root d.begun c = none :=
          hindered?_of_no_locks hlocks root d.begun c
        cases hnone.symm.trans hhindered

end Retracts

end Session

namespace Act

variable {s t : Session} {view root : ViewId} {v : View} {d : Document}

theorem amended_insert (hs : s.editor.Shows view v root d) (hseats : d.Seats v.markers)
    {text : Text} {n : Nat} (h : (insert view text).run s = (.ok n, t)) :
    ∃ b, s.Amended view v root d (.insert (d.extent v.markers).point text) t b ∧
      b.log = (d.revised (.insert (d.extent v.markers).point text)).log := by
  rw [run_insert hs hseats] at h
  rcases hchange : (makeChange view (.insert (d.extent v.markers).point text)).run s with ⟨e | a, u⟩
  · rw [hchange] at h
    cases h
  · obtain ⟨hamended, rfl⟩ := Session.amended_of_change hs hchange
    rw [hchange] at h
    simp only [run_changeShown hamended.showing] at h
    cases h
    exact ⟨_, hamended.setPoint _, rfl⟩

theorem amended_deleteRaw (hs : s.editor.Shows view v root d) {start stop : Nat} {text : Text}
    (h : (deleteRaw view start stop).run s = (.ok text, t)) :
    s.Amended view v root d (.delete start stop) t (d.revised (.delete start stop)) := by
  rw [run_deleteRaw hs] at h
  rcases hchange : (makeChange view (.delete start stop)).run s with ⟨e | a, u⟩
  · rw [hchange] at h
    cases h
  · rw [hchange] at h
    cases h
    exact (Session.amended_of_change hs hchange).1

/-! ## Edits of a text -/

theorem retracts_insert (hrest : s.AtRest) (hs : s.editor.Shows view v root d)
    (he : d.log.isEnabled = true) (hd : d.IsClosed) {text : Text} {n : Nat}
    (h : (insert view text).run s = (.ok n, t))
    (hchanged : ∀ b, t.editor.documents.get? root = some b → b.text ≠ d.text) :
    ∃ b r, t.Retracts view v root b r d.text := by
  have hseats := hrest.wellFormed.marking.seated view v root d hs
  obtain ⟨b, hamended, hlog⟩ := amended_insert hs hseats h
  exact ⟨b, _, hamended.retracts hrest he hd hlog (hchanged b hamended.document)
    fun hvoid => Document.visible_insert hseats hvoid⟩

theorem retracts_deleteRegion (hrest : s.AtRest) (hs : s.editor.Shows view v root d)
    (he : d.log.isEnabled = true) (hd : d.IsClosed) {p q : Nat} {text : Text}
    (h : (deleteRegion view p q).run s = (.ok text, t))
    (hchanged : ∀ b, t.editor.documents.get? root = some b → b.text ≠ d.text) :
    ∃ b r, t.Retracts view v root b r d.text := by
  have hseats := hrest.wellFormed.marking.seated view v root d hs
  rw [run_deleteRegion hs] at h
  split at h
  · cases h
  · rename_i hwithin
    rw [not_or, Nat.not_lt, Nat.not_lt] at hwithin
    have hamended := amended_deleteRaw hs h
    exact ⟨_, _, hamended.retracts hrest he hd rfl (hchanged _ hamended.document) fun _ =>
      Document.visible_delete hseats hwithin.1 (Position.ordered_fst_le p q) hwithin.2⟩

/-- What is erased has been made accessible before. -/
theorem retracts_erase (hrest : s.AtRest) (hs : s.editor.Shows view v root d)
    (he : d.log.isEnabled = true) (hd : d.IsClosed) (h : (erase view).run s = (.ok (), t))
    (hchanged : ∀ b, t.editor.documents.get? root = some b → b.text ≠ d.text) :
    ∃ b r, t.Retracts view v root b r d.text := by
  have hmoves : Session.Moves [] s (s.widened root v) := .of_quiet (.widen hs)
  have hwidened : (s.widened root v).AtRest := (Session.Leads.of_moves hmoves).atRest hrest
  have hshows := Session.shows_widened hs
  have hseats := hwidened.wellFormed.marking.seated view v root _ hshows
  rw [run_erase hs] at h
  split at h
  · cases h
  · rcases hchange : (makeChange view (.delete 0 d.length)).run (s.widened root v) with ⟨e | a, u⟩
    · rw [hchange] at h
      cases h
    · rw [hchange] at h
      cases h
      have hextent : (d.widened v.markers).extent v.markers =
          ⟨(d.extent v.markers).point, 0, d.length⟩ :=
        (Session.admits_widen hrest.wellFormed hs).2
      have hamended := (Session.amended_of_change hshows hchange).1
      have hlow : ((d.widened v.markers).extent v.markers).low ≤ 0 :=
        Nat.le_of_eq (congrArg Extent.low hextent)
      have hhigh : d.length ≤ ((d.widened v.markers).extent v.markers).high :=
        Nat.le_of_eq (congrArg Extent.high hextent).symm
      exact ⟨_, _, hamended.retracts hwidened he hd rfl (hchanged _ hamended.document) fun _ =>
        Document.visible_delete hseats hlow (Nat.zero_le _) hhigh⟩

end Act

end Editing
