import Editing.Proofs.Session.Returning

/-!
# Undos that fail on the way

When an undo fails on the way, what it has taken back stays so and is recorded, and the cursor is
put back. Whether the next undo tries the same group again depends on where the cursor was. One that
had moved still names the same record, but the group is then reverted on a text that is partly
reverted already. An idle one names whatever is newest, and if anything has been recorded this is
what the failed undo did itself.
-/

namespace Editing

theorem Record.close_eq_nil {rs : List Record} : close rs = [] ↔ rs = [] := by
  cases rs with
  | nil => exact Iff.rfl
  | cons r rs => cases r <;> simp [close, isBoundary]

namespace UndoLog

variable {l m : UndoLog}

theorem nextEntries_congr (h : m.ahead = l.ahead) : m.nextEntries = l.nextEntries := by
  rw [nextEntries, h, nextEntries]

theorem WellFormed.boundary_of_isClosed (h : l.WellFormed)
    (hl : l.records = [] ∨ ∃ rs, l.records = .boundary :: rs) : l.boundary = l := by
  rcases hl with hnone | ⟨rs, hsome⟩
  · rcases h.boundary_eq with ⟨heq, -⟩ | ⟨a, i, -, -, -, hclosed, -⟩
    · exact heq
    · rw [hnone] at hclosed
      cases hclosed
  · exact h.boundary_of_closed hsome

/-- The first record below a boundary that is on top comes next when the cursor is idle. -/
theorem mem_nextEntries_of_idle (hc : l.cursor = .idle) {e x : Nat × Record}
    {es : List (Nat × Record)} (hchain : l.chain = e :: x :: es) (he : e.2.isBoundary = true)
    (hx : x.2.isBoundary = false) : x ∈ l.nextEntries := by
  rw [nextEntries, ahead_idle hc, hchain,
    List.dropWhile_cons_of_pos (p := fun e : Nat × Record => e.2.isBoundary) he,
    List.dropWhile_cons_of_neg (p := fun e : Nat × Record => e.2.isBoundary)
      (by rw [hx]; exact Bool.false_ne_true),
    List.takeWhile_cons_of_pos (p := fun e : Nat × Record => !e.2.isBoundary) (by rw [hx]; rfl)]
  exact List.mem_cons_self

end UndoLog

namespace Document

variable {d c : Document} {news : List Record}

theorem Trail.revised (h : d.Trail c news) (hd : d.IsClosed) {change : Change}
    (hrange : change.rangeError c.length = none) : ∃ news', d.Trail (c.revised change) news' := by
  rw [Document.revised]
  split
  · exact ⟨news, h⟩
  · obtain ⟨news', htrail, -⟩ := h.apply hd hrange
    exact ⟨news', htrail.congr (by cases change <;> rfl) (by cases change <;> rfl)⟩

/-- Taking back a record is a change too, so it leaves a trail. -/
theorem Trail.replayed (h : d.Trail c news) (hd : d.IsClosed) (point : MarkerId) {r : Record}
    (hf : r.fits c.length = true) : ∃ news', d.Trail (c.replayed point r) news' := by
  cases r with
  | insert pos n =>
      obtain ⟨news', htrail⟩ := h.revised hd (rangeError_inverse hf rfl)
      exact ⟨news', htrail.congr rfl rfl⟩
  | delete pos text as =>
      obtain ⟨news', htrail⟩ := h.revised hd (rangeError_inverse hf rfl)
      exact ⟨news', htrail.congr (log_readjustAll _ _) (text_readjustAll _ _)⟩
  | property start stop key value => exact ⟨news, h⟩
  | boundary => exact ⟨news, h⟩

/-- The document with its newest group closed. -/
def closed (d : Document) : Document :=
  { d with log := d.log.boundary }

/-- What an undo that fails on the way makes of a document: the cursor is back, and on top of the
log is a group of what has been recorded, if anything has. -/
structure Halted (d c : Document) (top : List (Nat × Record)) (news : List Record) : Prop where
  cursor : c.log.cursor = d.log.cursor
  chain : c.log.chain = top ++ d.log.boundary.chain
  records : top.map Prod.snd = Record.close news
  unclosed : ∀ r ∈ news, r.isBoundary = false
  text : Record.revertAll news c.text = d.text

theorem trail_begun (hl : d.log.WellFormed) (ha : d.log.acceptsRecords = true) :
    d.closed.Trail d.begun [] := by
  refine ⟨hl.boundary.nextGroup.beginReplay, ?_, ?_, fun _ h => absurd h List.not_mem_nil, rfl⟩
  · apply UndoLog.accepts_of_enabled ((isEnabled_begun d).trans (UndoLog.isEnabled_of_accepts ha))
    change d.log.boundary.nextGroup.2.suspended = false
    rw [UndoLog.suspended_nextGroup, UndoLog.suspended_boundary, UndoLog.suspended_of_accepts ha]
  · change d.log.boundary.nextGroup.2.records = d.log.boundary.records
    rw [UndoLog.records_nextGroup]

/-- What a failed undo has recorded is closed as a group, if there is anything. -/
theorem Trail.records_ended (h : d.Trail c news) (hd : d.IsClosed) :
    c.ended.log.records = Record.close news ++ d.log.records := by
  have haccepts : c.log.endReplay.acceptsRecords = true := h.accepts
  have hrecords : c.log.endReplay.records = news ++ d.log.records := h.records
  have hclose := h.wellFormed.endReplay.records_boundary
  rw [haccepts, if_pos rfl, hrecords] at hclose
  apply hclose.trans
  cases news with
  | nil =>
      rcases hd with heq | ⟨rs, heq⟩
      · rw [heq]
        rfl
      · rw [heq]
        rfl
  | cons r news =>
      have hr : ¬ r.isBoundary = true := by
        rw [h.unclosed r List.mem_cons_self]
        exact Bool.false_ne_true
      rw [Record.close, if_neg hr, List.cons_append, Record.close, if_neg hr, List.cons_append,
        List.cons_append]

namespace Halted

variable {top : List (Nat × Record)}

theorem records_eq (h : d.Halted c top news) :
    c.log.records = Record.close news ++ d.log.boundary.records := by
  rw [UndoLog.records_eq, UndoLog.records_eq, h.chain, List.map_append, h.records]

/-- Something has been recorded on the way exactly if the records differ from those of the closed
log. -/
theorem records_ne_iff (h : d.Halted c top news) :
    c.log.records ≠ d.log.boundary.records ↔ news ≠ [] := by
  rw [h.records_eq, ne_eq, List.append_left_eq_self, Record.close_eq_nil]

theorem boundary_eq (h : d.Halted c top news) (hd : d.closed.IsClosed) (hc : c.log.WellFormed) :
    c.log.boundary = c.log := by
  have hrecords := h.records_eq
  rcases Record.close_closed news with hnone | ⟨rs, hsome⟩
  · rw [hnone, List.nil_append] at hrecords
    exact hc.boundary_of_isClosed (hrecords.symm ▸ hd)
  · rw [hsome, List.cons_append] at hrecords
    exact hc.boundary_of_closed hrecords

/-- The same group comes next, unless the cursor is idle and something has been recorded. -/
theorem nextEntries_eq (h : d.Halted c top news) (hd : d.log.WellFormed) (hc : c.log.WellFormed)
    (hidle : d.log.cursor = .idle → news = []) :
    c.log.nextEntries = d.log.boundary.nextEntries := by
  have hcursor := UndoLog.cursor_boundary d.log
  refine UndoLog.nextEntries_congr
    (UndoLog.ahead_of_suffix hd.boundary hc ?_ h.chain fun hnext => ?_)
  · rw [hcursor, h.cursor]
  · have htop := h.records
    rw [hidle (hcursor.symm.trans hnext)] at htop
    exact List.map_eq_nil_iff.mp htop

/-- From an idle cursor, what has been recorded on the way is the first group that remains. -/
theorem groups_remaining (h : d.Halted c top news) (hd : d.closed.IsClosed)
    (hidle : d.log.cursor = .idle) (hne : news ≠ []) :
    Record.groups c.log.remaining = news :: Record.groups d.log.boundary.records := by
  have hclose : Record.close news = .boundary :: news := by
    cases news with
    | nil => exact absurd rfl hne
    | cons r news =>
        rw [Record.close, if_neg]
        rw [h.unclosed r List.mem_cons_self]
        exact Bool.false_ne_true
  rw [UndoLog.remaining_idle (h.cursor.trans hidle), h.records_eq, hclose, List.cons_append,
    Record.groups_boundary]
  exact Record.groups_append h.unclosed hne hd

/-- From an idle cursor, another group comes next when something has been recorded. -/
theorem nextEntries_ne (h : d.Halted c top news) (hd : d.log.WellFormed) (hc : c.log.WellFormed)
    (hidle : d.log.cursor = .idle) (hne : news ≠ []) :
    c.log.nextEntries ≠ d.log.boundary.nextEntries := by
  intro heq
  obtain ⟨r, news, rfl⟩ := List.exists_cons_of_ne_nil hne
  have hr := h.unclosed r List.mem_cons_self
  have htop := h.records
  rw [Record.close, if_neg (by rw [hr]; exact Bool.false_ne_true)] at htop
  obtain ⟨e, top, rfl, he, htop⟩ := List.map_eq_cons_iff.mp htop
  obtain ⟨x, top, rfl, hx, -⟩ := List.map_eq_cons_iff.mp htop
  have hchain := h.chain
  rw [List.cons_append, List.cons_append] at hchain
  -- The newest record of the failed undo would have to be one of the records under it.
  have hnext := UndoLog.mem_nextEntries_of_idle (h.cursor.trans hidle) hchain (by rw [he]; rfl)
    (by rw [hx]; exact hr)
  have hold := hd.boundary.next_subset (heq ▸ hnext)
  have hnodup := hc.nodup_chain
  rw [hchain, List.map_cons, List.map_cons, List.nodup_cons, List.nodup_cons,
    List.map_append] at hnodup
  exact hnodup.2.1 (List.mem_append_right _ (List.mem_map_of_mem hold))

theorem alike {b : Document} (h : d.Halted c top news) (hcb : c.Alike b) : d.Halted b top news where
  cursor := (congrArg UndoLog.cursor hcb.log).trans h.cursor
  chain := (congrArg UndoLog.chain hcb.log).trans h.chain
  records := h.records
  unclosed := h.unclosed
  text := by rw [hcb.text, h.text]

end Halted

end Document
namespace Session

variable {s u : Session} {view root : ViewId} {v : View} {d c : Document}
  {news done rest group : List Record}

/-- Records taken back leave a trail to the text before the undo. -/
theorem Replaying.trail (h : s.Replaying view v root c (done ++ rest))
    (ha : AllowsAll root v s c done) (ht : d.Trail c news) (hd : d.IsClosed) :
    ∃ news', d.Trail (c.replayedAll v.markers.point done) news' := by
  induction done generalizing s c news with
  | nil => exact ⟨news, ht⟩
  | cons r done ih =>
      obtain ⟨next, hnext⟩ := ht.replayed hd v.markers.point (h.seats.fits ha.1.visible)
      exact ih (h.next ha.1) ha.2 hnext

/-- Where an undo that fails on the way leaves the document. -/
theorem AtRest.halted (h : s.AtRest) (hs : s.editor.Shows view v root d)
    (he : d.log.isEnabled = true) (hgroup : d.log.boundary.nextGroup.1 = .ok group) {e : Error}
    (hfails : ((Act.undo view).run s).1 = .error e) :
    ∃ c top news, (s.after (.undo view)).editor.Shows view v root c ∧ d.Halted c top news ∧
      c.log.isEnabled = d.log.isEnabled := by
  have ha := h.wellFormed.admits hs.document
  have haccepts := h.accepts hs.document he
  have hreplaying := replaying_begun h.wellFormed hs hgroup
  rcases Act.undo_cases h.wellFormed hs he hgroup with
    ⟨-, hrun⟩ | ⟨done, r, rest, e, t, hsplit, hallows, hblocks, hrun⟩
  · rw [hrun] at hfails
    cases hfails
  · subst hsplit
    have hclosed := Document.isClosed_boundary ha.log haccepts
    obtain ⟨news, htrail⟩ := hreplaying.trail hallows (Document.trail_begun ha.log haccepts) hclosed
    have hgrown := Document.grown_replayedAll (Document.grown_begun ha.log haccepts hgroup)
      ha.log.boundary.nextGroup.beginReplay rfl v.markers.point done
    obtain ⟨top, htop⟩ := (hgrown.endReplay.boundary htrail.wellFormed.endReplay).chain_eq
    have hrecords := htrail.records_ended hclosed
    rw [UndoLog.records_eq, UndoLog.records_eq] at hrecords
    refine ⟨(d.begun.replayedAll v.markers.point done).ended.rewound d.log.cursor, top, news, ?_,
      ⟨rfl, htop, ?_, htrail.unclosed, htrail.text⟩,
      Document.isEnabled_undone d v.markers.point done⟩
    · have ht : t.editor.Shows view v root (d.begun.replayedAll v.markers.point done) :=
        hblocks.editor_eq.symm ▸ (hreplaying.nextAll hallows).shows
      rw [after_undo_eq, hrun]
      exact shows_onDocument_self (shows_onDocument_self ht _) _
    · apply (List.append_left_inj (d.log.boundary.chain.map Prod.snd)).mp
      rw [← List.map_append, ← htop]
      exact hrecords

end Session

/-- The group that the next undo through a view takes, with the slots of its records. -/
def Editor.nextGroup (e : Editor) (view : ViewId) : Except Error (List (Nat × Record)) := do
  return (← e.document view).log.boundary.nextEntries

theorem Editor.Shows.nextGroup_eq {e : Editor} {view root : ViewId} {v : View} {d : Document}
    (h : e.Shows view v root d) : e.nextGroup view = .ok d.log.boundary.nextEntries := by
  rw [Editor.nextGroup, h.document_eq]
  rfl

deriving instance DecidableEq for Slot, Arena, UndoLog

/-- The text of a root and its log. -/
def Editor.textAndLog (e : Editor) (root : ViewId) : Option (Text × UndoLog) :=
  (e.documents.get? root).map fun d => (d.text, d.log)

theorem Editor.alike_of_textAndLog {e f : Editor} {root : ViewId} {c b : Document}
    (hc : e.documents.get? root = some c) (hb : f.documents.get? root = some b)
    (h : f.textAndLog root = e.textAndLog root) : c.Alike b := by
  rw [textAndLog, textAndLog, hb, hc] at h
  obtain ⟨htext, hlog⟩ := Prod.mk.inj (Option.some.inj h)
  exact ⟨htext, hlog⟩

namespace Session

variable {s u : Session} {view root : ViewId} {v : View} {d b : Document} {text halfway : Text}
  {top : List (Nat × Record)} {news : List Record} {cursor : Cursor} {entries : List (Nat × Record)}

theorem AtRest.undo_ok_iff (h : s.AtRest) (hs : s.editor.Shows view v root d)
    (he : d.log.isEnabled = true) (hw : d.IsWide v.markers) {group : List Record}
    (hgroup : d.log.boundary.nextGroup.1 = .ok group)
    (hgranted : ∀ path, .lockRefused root path ∉ s.callsUntil (s.after (.undo view))) :
    ((Act.undo view).run s).1 = .ok () ↔ Record.FitsAll group d.text := by
  constructor
  · intro hok
    rcases Act.undo_cases h.wellFormed hs he hgroup with
      ⟨hallows, -⟩ | ⟨done, r, rest, e, t, -, -, -, hrun⟩
    · exact (replaying_begun h.wellFormed hs hgroup).fitsAll_of_allowsAll hallows
    · rw [hrun] at hok
      cases hok
  · intro hfits
    rw [(h.undo_fitting hs he hw hgroup hfits hgranted).2]

theorem AtRest.fullText_undo_ok (h : s.AtRest) (hs : s.editor.Shows view v root d)
    (he : d.log.isEnabled = true) {group : List Record}
    (hgroup : d.log.boundary.nextGroup.1 = .ok group)
    (hok : ((Act.undo view).run s).1 = .ok ()) :
    (s.after (.undo view)).editor.fullText view = .ok (Record.revertAll group d.text) := by
  rcases Act.undo_cases h.wellFormed hs he hgroup with
    ⟨hallows, hrun⟩ | ⟨done, r, rest, e, t, -, -, -, hrun⟩
  · have hfinal := (replaying_begun h.wellFormed hs hgroup).finish hallows
    rw [after_undo_eq, hrun, (shows_onDocument_self hfinal.shows Document.ended).fullText_eq]
    exact congrArg Except.ok (Document.text_undone d v.markers.point group)
  · rw [hrun] at hok
    cases hok

/-- With the text and the log of a failed undo, the next undo takes back what the failed one has
recorded, if the cursor was idle and there is anything of that kind. -/
theorem Reachable.retry_other (h : u.Reachable) (hs : u.editor.Shows view v root b)
    (hhalted : d.Halted b top news) (hd : d.log.WellFormed) (hclosed : d.closed.IsClosed)
    (he : b.log.isEnabled = true) (hwide : u.editor.isNarrowed view = .ok false)
    (hgranted : ∀ path, .lockRefused root path ∉ u.callsUntil (u.after (.undo view)))
    (hidle : d.log.cursor = .idle) (hne : news ≠ []) :
    ((Act.undo view).run u).1 = .ok () ∧ (u.after (.undo view)).editor.fullText view = .ok d.text ∧
      u.editor.nextGroup view ≠ .ok d.log.boundary.nextEntries := by
  have hb := (h.atRest.wellFormed.admits hs.document).log
  have henabled : u.editor.undoEnabled view = .ok true := by rw [hs.undoEnabled_eq, he]
  have hcursor : u.editor.undoCursor view = .ok .idle := by
    rw [hs.undoCursor_eq, hhalted.cursor, hidle]
  obtain ⟨w, c, hpoised, -, -⟩ := h.poised hs.rootOf_eq hs.fullText_eq hs.undoRecords_eq henabled
    hwide hcursor
  obtain ⟨rfl, -, rfl⟩ := hs.unique hpoised.shows
  obtain ⟨hrun, -, hundone, -, -⟩ :=
    hpoised.undo_group (hhalted.groups_remaining hclosed hidle hne) hgranted
  refine ⟨hrun, ?_, ?_⟩
  · rw [hundone.shows.fullText_eq, Document.text_undone, hhalted.text]
  · rw [hs.nextGroup_eq, hhalted.boundary_eq hclosed hb]
    exact fun heq => hhalted.nextEntries_ne hd hb hidle hne (Except.ok.inj heq)

/-- In all other cases the next undo takes back the same group, if this fits the text as it is. -/
theorem AtRest.retry_same (h : u.AtRest) (hs : u.editor.Shows view v root b)
    (hhalted : d.Halted b top news) (hd : d.log.WellFormed) (hclosed : d.closed.IsClosed)
    (he : b.log.isEnabled = true) (hwide : u.editor.isNarrowed view = .ok false)
    (hgranted : ∀ path, .lockRefused root path ∉ u.callsUntil (u.after (.undo view)))
    (hidle : d.log.cursor = .idle → news = []) (hne : d.log.boundary.nextEntries ≠ []) :
    u.editor.nextGroup view = .ok d.log.boundary.nextEntries ∧
      (((Act.undo view).run u).1 = .ok () ↔
        Record.FitsAll (d.log.boundary.nextEntries.map Prod.snd) b.text) ∧
      (((Act.undo view).run u).1 = .ok () →
        (u.after (.undo view)).editor.fullText view =
          .ok (Record.revertAll (d.log.boundary.nextEntries.map Prod.snd) b.text)) := by
  have hb := (h.wellFormed.admits hs.document).log
  have hnext := hhalted.nextEntries_eq hd hb hidle
  have hgroup : b.log.boundary.nextGroup.1 = .ok (d.log.boundary.nextEntries.map Prod.snd) := by
    rw [hhalted.boundary_eq hclosed hb, ← hnext]
    exact UndoLog.nextGroup_of_next he (hnext.symm ▸ hne)
  refine ⟨?_, ?_, h.fullText_undo_ok hs he hgroup⟩
  · rw [hs.nextGroup_eq, hhalted.boundary_eq hclosed hb, hnext]
  · exact h.undo_ok_iff hs he (hs.isWide hwide) hgroup hgranted

/-- After an undo that has failed, and while the text and the log stay as it left them, an undo
through a view of the whole text tries the same group again, on the text as it is now, unless the
cursor was idle and the failed undo has recorded something. This it takes back then, which restores
the text before. So the text is the one that the failed undo would have left exactly if the group is
tried again, still fits, and reverts both texts to the same one. -/
theorem failed_undo_retried_iff (ops : List Op)
    (h : s.Reachable) (hroot : s.editor.rootOf view = .ok root)
    (htext : s.editor.fullText view = .ok text) (hundo : s.editor.undoEnabled view = .ok true)
    (hcursor : s.editor.undoCursor view = .ok cursor)
    (hentries : s.editor.nextGroup view = .ok entries) (hne : entries ≠ []) {e : Error}
    (hfails : ((Op.undo view).act.run s).1 = .error e)
    (hhalfway : (s.after (.undo view)).editor.fullText view = .ok halfway)
    (hkept : ((s.after (.undo view)).afterAll ops).editor.textAndLog root =
      (s.after (.undo view)).editor.textAndLog root)
    (hview : ((s.after (.undo view)).afterAll ops).editor.rootOf view = .ok root)
    (hwide : ((s.after (.undo view)).afterAll ops).editor.isNarrowed view = .ok false)
    (hgranted : ∀ path, .lockRefused root path ∉
      ((s.after (.undo view)).afterAll ops).callsUntil
        (((s.after (.undo view)).afterAll ops).after (.undo view))) :
    let t := s.after (.undo view)
    let u := t.afterAll ops
    let group := entries.map Prod.snd
    let recorded := t.editor.undoRecords view ≠ (s.after (.closeGroup view)).editor.undoRecords view
    (cursor = .idle ∧ recorded →
      ((Op.undo view).act.run u).1 = .ok .done ∧
        (u.after (.undo view)).editor.fullText view = .ok text) ∧
    (¬ (cursor = .idle ∧ recorded) →
      u.editor.nextGroup view = .ok entries ∧
        (((Op.undo view).act.run u).1 = .ok .done ↔ Record.FitsAll group halfway) ∧
        (((Op.undo view).act.run u).1 = .ok .done →
          (u.after (.undo view)).editor.fullText view =
            .ok (Record.revertAll group halfway))) ∧
    ((u.editor.nextGroup view = .ok entries ∧ ((Op.undo view).act.run u).1 = .ok .done ∧
        (u.after (.undo view)).editor.fullText view = .ok (Record.revertAll group text)) ↔
      ¬ (cursor = .idle ∧ recorded) ∧ Record.FitsAll group halfway ∧
        Record.revertAll group halfway = Record.revertAll group text) := by
  intro t u group recorded
  have hrest := h.atRest
  have hlater : u.Reachable := (h.after _).afterAll ops
  obtain ⟨v, d, hs⟩ := hrest.wellFormed.registry.shows_of_rootOf hroot
  rw [hs.fullText_eq] at htext
  cases htext
  rw [hs.undoEnabled_eq] at hundo
  rw [hs.undoCursor_eq] at hcursor
  cases hcursor
  rw [hs.nextGroup_eq] at hentries
  cases hentries
  have hadmits := hrest.wellFormed.admits hs.document
  have henabled := Except.ok.inj hundo
  have hclosed := Document.isClosed_boundary hadmits.log (hrest.accepts hs.document henabled)
  have hgroup : d.log.boundary.nextGroup.1 = .ok group :=
    UndoLog.nextGroup_of_next ((UndoLog.isEnabled_boundary d.log).trans henabled) hne
  -- What the failed undo has left is still there when the next one starts.
  obtain ⟨c, top, news, ht, hhalted, hsame⟩ :=
    hrest.halted hs henabled hgroup (Act.run_quietly_error_iff.mp hfails)
  rw [ht.fullText_eq] at hhalfway
  cases hhalfway
  obtain ⟨w, b, hu⟩ := hlater.atRest.wellFormed.registry.shows_of_rootOf hview
  have halike := Editor.alike_of_textAndLog ht.document hu.document hkept
  have hb := hhalted.alike halike
  have hbenabled : b.log.isEnabled = true := by rw [halike.log, hsame, henabled]
  have hrecorded : recorded ↔ news ≠ [] := by
    change t.editor.undoRecords view ≠ _ ↔ _
    rw [ht.undoRecords_eq, after_closeGroup hs, (shows_onDocument_self hs _).undoRecords_eq, ne_eq,
      Except.ok.injEq]
    exact hhalted.records_ne_iff
  rw [hrecorded]
  change (_ → ((Op.undo view).act.run u).1 = _ ∧ _) ∧ _
  rw [Op.act, Act.run_quietly_ok_iff, ← halike.text]
  -- Only from an idle cursor does what has been recorded stand before the group.
  by_cases hother : d.log.cursor = .idle ∧ news ≠ []
  · have hretry :=
        hlater.retry_other hu hb hadmits.log hclosed hbenabled hwide hgranted hother.1 hother.2
    exact ⟨fun _ => ⟨hretry.1, hretry.2.1⟩, fun hnot => absurd hother hnot,
      fun hclaim => absurd hclaim.1 hretry.2.2, fun hcondition => absurd hother hcondition.1⟩
  · obtain ⟨hnext, hok, hresult⟩ :=
      hlater.atRest.retry_same hu hb hadmits.log hclosed hbenabled hwide
      hgranted (fun hidle => Decidable.byContradiction fun hnews => hother ⟨hidle, hnews⟩) hne
    refine ⟨fun hyes => absurd hyes hother, fun _ => ⟨hnext, hok, hresult⟩, ?_, ?_⟩
    · rintro ⟨-, hrun, htext⟩
      rw [hresult hrun] at htext
      exact ⟨hother, hok.mp hrun, Except.ok.inj htext⟩
    · rintro ⟨-, hfits, htext⟩
      refine ⟨hnext, hok.mpr hfits, ?_⟩
      rw [hresult (hok.mpr hfits), htext]

/-- A group with a property of the end of the text and an insertion at its start, of which a view
shows only the end. -/
def endShown : List Op :=
  [.createRoot "v", .insert 0 "abc".toList, .closeGroup 0, .insertRaw 0 0 "x".toList,
    .noteProperty 0 3 1 "face" .nil, .narrow 0 3 4]

theorem endShown_retried :
    let s := (fresh .default none).afterAll endShown
    let t := s.after (.undo 0)
    let u := t.afterAll [.widen 0]
    let entries := [(3, .property 3 4 "face" .nil), (2, .insert 0 1)]
    s.Reachable ∧ s.editor.rootOf 0 = .ok 0 ∧ s.editor.fullText 0 = .ok "xabc".toList ∧
      s.editor.undoEnabled 0 = .ok true ∧ s.editor.undoCursor 0 = .ok .idle ∧
      s.editor.nextGroup 0 = .ok entries ∧
      ((Op.undo 0).act.run s).1 = .error .hiddenChange ∧
      t.editor.fullText 0 = .ok "xabc".toList ∧
      u.editor.textAndLog 0 = t.editor.textAndLog 0 ∧ u.editor.rootOf 0 = .ok 0 ∧
      u.editor.isNarrowed 0 = .ok false ∧
      (∀ path, .lockRefused 0 path ∉ u.callsUntil (u.after (.undo 0))) ∧
      u.editor.nextGroup 0 = .ok entries ∧ ((Op.undo 0).act.run u).1 = .ok .done ∧
      (u.after (.undo 0)).editor.fullText 0 = .ok "abc".toList := by
  intro s t u entries
  have hreachable : s.Reachable := (Reachable.fresh .default none).afterAll endShown
  have hroot : s.editor.rootOf 0 = .ok 0 := by decide +kernel
  have htext : s.editor.fullText 0 = .ok "xabc".toList := by decide +kernel
  have hundo : s.editor.undoEnabled 0 = .ok true := by decide +kernel
  have hidle : s.editor.undoCursor 0 = .ok .idle := by decide +kernel
  have hentries : s.editor.nextGroup 0 = .ok entries := by decide +kernel
  have hfails : ((Op.undo 0).act.run s).1 = .error .hiddenChange :=
    Act.run_quietly_error_iff.mpr (by decide +kernel)
  have hhalfway : t.editor.fullText 0 = .ok "xabc".toList := by decide +kernel
  have hkept : u.editor.textAndLog 0 = t.editor.textAndLog 0 := by decide +kernel
  have hview : u.editor.rootOf 0 = .ok 0 := by decide +kernel
  have hwide : u.editor.isNarrowed 0 = .ok false := by decide +kernel
  have hrestores : (u.callsUntil (u.after (.undo 0))).all Call.isRestore = true := by decide +kernel
  have hgranted : ∀ path, .lockRefused 0 path ∉ u.callsUntil (u.after (.undo 0)) := by
    intro path hmem
    cases List.all_eq_true.mp hrestores _ hmem
  have hsilent : t.editor.undoRecords 0 = (s.after (.closeGroup 0)).editor.undoRecords 0 := by
    decide +kernel
  obtain ⟨-, -, hretried⟩ :=
    failed_undo_retried_iff [.widen 0] hreachable hroot htext hundo hidle hentries
    (List.cons_ne_nil _ _) hfails hhalfway hkept hview hwide hgranted
  exact ⟨hreachable, hroot, htext, hundo, hidle, hentries, hfails, hhalfway, hkept, hview, hwide,
    hgranted, hretried.mpr ⟨fun hother => hother.2 hsilent, ⟨rfl, rfl, trivial⟩, rfl⟩⟩

/-- A group of insertions at both ends of a text, of which a view shows only the last one. -/
def endsInserted : List Op :=
  [.createRoot "v", .insert 0 "abc".toList, .closeGroup 0, .insertRaw 0 0 "x".toList,
    .insertRaw 0 4 "y".toList, .narrow 0 3 5]

/-- The second undo takes back what the first one has recorded, not the group that it tried. -/
theorem endsInserted_not_retried :
    let s := (fresh .default none).afterAll endsInserted
    let t := s.after (.undo 0)
    let u := t.after (.widen 0)
    let entries := [(3, .insert 4 1), (2, .insert 0 1)]
    s.Reachable ∧ s.editor.fullText 0 = .ok "xabcy".toList ∧ s.editor.nextGroup 0 = .ok entries ∧
      ((Op.undo 0).act.run s).1 = .error .hiddenChange ∧
      t.editor.fullText 0 = .ok "xabc".toList ∧
      u.editor.textAndLog 0 = t.editor.textAndLog 0 ∧ u.editor.isNarrowed 0 = .ok false ∧
      u.editor.nextGroup 0 ≠ .ok entries ∧ ((Op.undo 0).act.run u).1 = .ok .done ∧
      (u.after (.undo 0)).editor.fullText 0 = .ok "xabcy".toList ∧
      Record.revertAll (entries.map Prod.snd) "xabcy".toList = "abc".toList := by
  intro s t u entries
  exact ⟨(Reachable.fresh .default none).afterAll endsInserted, by decide +kernel,
    by decide +kernel,
    Act.run_quietly_error_iff.mpr (by decide +kernel), by decide +kernel, by decide +kernel,
    by decide +kernel, by decide +kernel, Act.run_quietly_ok_iff.mpr (by decide +kernel),
    by decide +kernel, rfl⟩

end Session

end Editing
