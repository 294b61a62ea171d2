import Editing.Proofs.Session.Consecutive
import Editing.Proofs.Session.Seating

/-!
# Edits since a group was closed

Edits since a group was closed form a group of their own. It is kept with the text and the seats of
the user's markers: taking its records back from where they are now gives what there was before. So
an undo puts both back.
-/

namespace Editing

namespace Record

/-- An insertion joins the newest record of an open group, or is put on top of it. -/
theorem addInsert_append (news : List Record) {base : List Record}
    (hbase : base = [] ∨ ∃ rs, base = .boundary :: rs) (pos k : Nat) :
    (∃ start n rest, news = .insert start n :: rest ∧ pos = start + n ∧
      addInsert pos k (news ++ base) = .insert start (n + k) :: (rest ++ base)) ∨
    addInsert pos k (news ++ base) = .insert pos k :: (news ++ base) := by
  cases news with
  | nil =>
      rcases hbase with rfl | ⟨rs, rfl⟩
      · exact Or.inr rfl
      · exact Or.inr rfl
  | cons r rest =>
      cases r with
      | insert start n =>
          rw [List.cons_append, addInsert]
          split
          · rename_i hmerge
            exact Or.inl ⟨start, n, rest, rfl, hmerge.symm, rfl⟩
          · exact Or.inr rfl
      | delete _ _ _ => exact Or.inr rfl
      | property _ _ _ _ => exact Or.inr rfl
      | boundary => exact Or.inr rfl

end Record

namespace Document

/-- The same text and log with the user's markers in the same places; the views may differ. -/
structure Resembles (d c : Document) : Prop where
  text : c.text = d.text
  log : c.log = d.log
  seat : ∀ id, c.seat id = d.seat id

/-- Changes lead from one document to another, while views may be moved about. -/
inductive Edited : Document → Document → Prop
  | kept {d c : Document} (h : d.Resembles c) : Edited d c
  | changed {d c : Document} (change : Change) (hrange : change.rangeError d.length = none)
      (h : (d.apply change).Resembles c) : Edited d c
  | trans {d b c : Document} (h : Edited d b) (h' : Edited b c) : Edited d c

/-- The records since a document was closed, which lead back to its text. -/
structure Trail (d c : Document) (news : List Record) : Prop where
  wellFormed : c.log.WellFormed
  accepts : c.log.acceptsRecords = true
  records : c.log.records = news ++ d.log.records
  unclosed : ∀ r ∈ news, r.isBoundary = false
  text : Record.revertAll news c.text = d.text

/-- The records lead back to the seats too, and an undo will take them first. -/
structure Since (d c : Document) (news : List Record) : Prop where
  trail : d.Trail c news
  replaying : c.log.replaying = false
  seat : ∀ id, (c.seat id).map (Record.recedeAll id news c.text) = d.seat id
  cursor : news ≠ [] → c.log.cursor = .idle

/-- Nothing that may be merged with comes first in the log. -/
def IsClosed (d : Document) : Prop :=
  d.log.records = [] ∨ ∃ rs, d.log.records = .boundary :: rs

variable {d c b : Document} {news : List Record}

theorem Trail.refl (hl : d.log.WellFormed) (ha : d.log.acceptsRecords = true) : d.Trail d [] where
  wellFormed := hl
  accepts := ha
  records := rfl
  unclosed _ h := absurd h List.not_mem_nil
  text := rfl

theorem Trail.congr (h : d.Trail c news) (hlog : b.log = c.log) (htext : b.text = c.text) :
    d.Trail b news where
  wellFormed := hlog ▸ h.wellFormed
  accepts := hlog ▸ h.accepts
  records := hlog ▸ h.records
  unclosed := h.unclosed
  text := htext ▸ h.text

/-- The records after a change: those before it lead on, also for the markers, to where the change
came from. -/
structure Prolongs (c : Document) (news : List Record) (change : Change) (news' : List Record) :
    Prop where
  nonempty : news' ≠ []
  recede : ∀ id m, c.seat id = some m →
    Record.recedeAll id news' (c.apply change).text (change.advance m) =
      Record.recedeAll id news c.text m

theorem Trail.push (h : d.Trail c news) {change : Change} {r : Record}
    (hwf : (c.apply change).log.WellFormed) (haccepts : (c.apply change).log.acceptsRecords = true)
    (hrecords : (c.apply change).log.records = r :: (news ++ d.log.records))
    (hr : r.isBoundary = false) (htext : r.revert (c.apply change).text = c.text)
    (hseat : ∀ id m, c.seat id = some m →
      r.recede id (c.apply change).text.length (change.advance m) = m) :
    d.Trail (c.apply change) (r :: news) ∧ c.Prolongs news change (r :: news) := by
  refine ⟨⟨hwf, haccepts, hrecords, ?_, ?_⟩, ⟨List.cons_ne_nil _ _, ?_⟩⟩
  · intro q hq
    rcases List.mem_cons.mp hq with rfl | hq
    · exact hr
    · exact h.unclosed q hq
  · rw [Record.revertAll_cons, htext, h.text]
  · intro id m hm
    rw [Record.recedeAll, htext, hseat id m hm]

theorem Trail.record (h : d.Trail c news) {change : Change} {r : Record}
    (hlog : (c.apply change).log = c.log.record r) (hr : r.isBoundary = false)
    (htext : r.revert (c.apply change).text = c.text)
    (hseat : ∀ id m, c.seat id = some m →
      r.recede id (c.apply change).text.length (change.advance m) = m) :
    d.Trail (c.apply change) (r :: news) ∧ c.Prolongs news change (r :: news) := by
  refine h.push (hlog ▸ h.wellFormed.record r) ?_ ?_ hr htext hseat
  · rw [hlog, UndoLog.acceptsRecords_record, h.accepts]
  · rw [hlog, h.wellFormed.records_record, h.accepts, if_pos rfl, h.records]

theorem Trail.insert (h : d.Trail c news) (hd : d.IsClosed) {pos : Nat} (hpos : pos ≤ c.length)
    (text : Text) :
    ∃ news', d.Trail (c.apply (.insert pos text)) news' ∧
      c.Prolongs news (.insert pos text) news' := by
  have hlog : (c.apply (.insert pos text)).log = c.log.recordInsert pos text.length := rfl
  have hrecords : (c.apply (.insert pos text)).log.records =
      Record.addInsert pos text.length (news ++ d.log.records) := by
    rw [hlog, h.wellFormed.records_recordInsert, h.accepts, if_pos rfl, h.records]
  have hwf : (c.apply (.insert pos text)).log.WellFormed := h.wellFormed.recordInsert _ _
  have haccepts : (c.apply (.insert pos text)).log.acceptsRecords = true := by
    rw [hlog, UndoLog.acceptsRecords_recordInsert, h.accepts]
  rcases Record.addInsert_append news hd pos text.length with
    ⟨start, n, rest, rfl, rfl, hadd⟩ | hadd
  -- Merged with the newest record, both insertions are taken back as one.
  · have hmerged := Record.revert_merged c.text text hpos
    refine ⟨.insert start (n + text.length) :: rest, ⟨hwf, haccepts, hrecords.trans hadd, ?_, ?_⟩,
      ⟨List.cons_ne_nil _ _, ?_⟩⟩
    · intro r hr
      rcases List.mem_cons.mp hr with rfl | hr
      · rfl
      · exact h.unclosed r (List.mem_cons_of_mem _ hr)
    · rw [← h.text]
      exact congrArg (Record.revertAll rest) hmerged
    · intro id m _
      have hrecede :=
          recede_merged id (c.apply (.insert (start + n) text)).text.length c.text.length
        start n text.length m
      rw [Record.recedeAll, Record.recedeAll]
      exact (congrArg (fun t => Record.recedeAll id rest t _) hmerged).trans
        (congrArg (Record.recedeAll id rest _) hrecede)
  · have hreverted := Record.revert_insert c.text text hpos
    exact ⟨_, h.push hwf haccepts (hrecords.trans hadd) rfl hreverted fun id m _ =>
      recede_insert id _ pos text.length m⟩

theorem Trail.apply (h : d.Trail c news) (hd : d.IsClosed) {change : Change}
    (hrange : change.rangeError c.length = none) :
    ∃ news', d.Trail (c.apply change) news' ∧ c.Prolongs news change news' := by
  cases change with
  | insert pos text => exact h.insert hd (Change.insert_le hrange) text
  | delete start stop =>
      obtain ⟨hle, hstop⟩ := Change.delete_le hrange
      refine ⟨_, h.record (r := c.deletionRecord start stop) rfl rfl ?_ ?_⟩
      · exact Record.revert_delete c.text _ hle hstop
      · intro id m hm
        have hlength : (c.apply (.delete start stop)).text.length = c.length - (stop - start) := by
          change (c.text.remove start stop).length = c.text.length - (stop - start)
          rw [Text.length_remove, Text.length_slice,
            Nat.min_eq_left (show stop ≤ c.text.length from hstop)]
        rw [hlength]
        exact recede_delete hm h.accepts hle hstop
  | property start stop key value =>
      exact ⟨_, h.record (r := .property start stop key value) rfl rfl rfl fun _ _ _ => rfl⟩

theorem cursor_apply (hl : c.log.WellFormed) (ha : c.log.acceptsRecords = true)
    (hr : c.log.replaying = false) (change : Change) : (c.apply change).log.cursor = .idle := by
  cases change with
  | insert pos text => exact hl.cursor_recordInsert_idle ha hr pos text.length
  | delete start stop =>
      apply (UndoLog.cursor_record ha (c.deletionRecord start stop)).trans
      rw [hr, if_neg Bool.false_ne_true]
  | property start stop key value =>
      apply (UndoLog.cursor_record ha (.property start stop key value)).trans
      rw [hr, if_neg Bool.false_ne_true]

theorem Since.refl (hl : d.log.WellFormed) (ha : d.log.acceptsRecords = true)
    (hr : d.log.replaying = false) : d.Since d [] where
  trail := .refl hl ha
  replaying := hr
  seat id := by
    change (d.seat id).map (fun m => m) = d.seat id
    rw [Option.map_id']
  cursor h := absurd rfl h

theorem Since.resembles (h : d.Since c news) (hb : c.Resembles b) : d.Since b news where
  trail := h.trail.congr hb.log hb.text
  replaying := hb.log ▸ h.replaying
  seat id := by rw [hb.seat, hb.text, h.seat]
  cursor := hb.log ▸ h.cursor

theorem Since.apply (h : d.Since c news) (hd : d.IsClosed) {change : Change}
    (hrange : change.rangeError c.length = none) :
    ∃ news', d.Since (c.apply change) news' ∧ news' ≠ [] := by
  obtain ⟨news', htrail, hprolongs⟩ := h.trail.apply hd hrange
  refine ⟨news', ⟨htrail, ?_, fun id => ?_, fun _ => ?_⟩, hprolongs.nonempty⟩
  · rw [replaying_apply, h.replaying]
  · rw [← h.seat id, seat_apply, Option.map_map]
    cases hm : c.seat id with
    | none => rfl
    | some m => exact congrArg some (hprolongs.recede id m hm)
  · exact cursor_apply h.trail.wellFormed h.trail.accepts h.replaying change

/-- Edits keep a way back, and there is a record of them as soon as the text has changed. -/
theorem Since.edited (he : c.Edited b) (h : d.Since c news) (hd : d.IsClosed) :
    ∃ news', d.Since b news' ∧ (news ≠ [] → news' ≠ []) ∧ (b.text ≠ c.text → news' ≠ []) := by
  induction he generalizing news with
  | kept hb => exact ⟨news, h.resembles hb, fun hne => hne, fun hne => absurd hb.text hne⟩
  | changed change hrange hb =>
      obtain ⟨news', hsince, hne⟩ := h.apply hd hrange
      exact ⟨news', hsince.resembles hb, fun _ => hne, fun _ => hne⟩
  | @trans c a b _ _ ih ih' =>
      obtain ⟨first, hfirst, hkeep, hchange⟩ := ih h
      obtain ⟨last, hlast, hkeep', hchange'⟩ := ih' hfirst
      refine ⟨last, hlast, fun hne => hkeep' (hkeep hne), fun hne => ?_⟩
      -- The text has changed in one of the two parts, and what is recorded in the first one stays.
      by_cases ha : a.text = c.text
      · exact hchange' (ha ▸ hne)
      · exact hkeep' (hchange ha)

end Document

/-! ## Edits of a session -/

/-- Whether the operation edits a text or moves about in it. -/
def Op.isEdit : Op → Bool
  | insert .. | deleteRegion .. | erase _ | insertRaw .. | deleteRaw .. => true
  | goto .. | narrow .. | widen _ => true
  | _ => false

namespace Session

/-- Every document is an edited one, and no marker of the user has been created, placed or given
another insertion type. -/
structure Edits (s t : Session) : Prop where
  documents : ∀ root d, s.editor.documents.get? root = some d →
    ∃ c, t.editor.documents.get? root = some c ∧ d.Edited c
  userMarkers : t.editor.userMarkers = s.editor.userMarkers

variable {s t u : Session} {view root : ViewId} {v : View} {d : Document}

theorem Edits.of_editor (h : t.editor = s.editor) : s.Edits t where
  documents root d hd := ⟨d, h ▸ hd, .kept ⟨rfl, rfl, fun _ => rfl⟩⟩
  userMarkers := by rw [h]

theorem Edits.refl (s : Session) : s.Edits s := .of_editor rfl

theorem Edits.trans (h : s.Edits t) (h' : t.Edits u) : s.Edits u where
  documents root d hd := by
    obtain ⟨b, hb, hdb⟩ := h.documents root d hd
    obtain ⟨c, hc, hbc⟩ := h'.documents root b hb
    exact ⟨c, hc, hdb.trans hbc⟩
  userMarkers := h'.userMarkers.trans h.userMarkers

theorem edits_onDocument (hd : s.editor.documents.get? root = some d) {f : Document → Document}
    (hf : d.Edited (f d)) : s.Edits (s.onDocument root f) where
  documents r b hb := by
    by_cases hr : r = root
    · subst hr
      obtain rfl := Option.some.inj (hd.symm.trans hb)
      exact ⟨f d, get?_onDocument_self hd f, hf⟩
    · exact ⟨b, (get?_onDocument_of_ne _ hr _).trans hb, .kept ⟨rfl, rfl, fun _ => rfl⟩⟩
  userMarkers := rfl

theorem edits_revised (hs : s.editor.Shows view v root d) {c : Change}
    (hrange : c.rangeError d.length = none) : s.Edits (s.revised root d c) where
  documents r b hb := by
    by_cases hr : r = root
    · subst hr
      obtain rfl := Option.some.inj (hs.document.symm.trans hb)
      refine ⟨d.revised c, (shows_revised hs).document, ?_⟩
      rw [Document.revised]
      split
      · exact .kept ⟨rfl, rfl, fun _ => rfl⟩
      · refine .changed c hrange ⟨?_, ?_, ?_⟩
        · cases c <;> rfl
        · cases c <;> rfl
        · exact fun id => Document.seat_congr (by cases c <;> rfl) id
    · exact ⟨b, (documents_revised_of_ne hs.document hr).trans hb, .kept ⟨rfl, rfl, fun _ => rfl⟩⟩
  userMarkers := userMarkers_revised s root d c

end Session

namespace Document

variable {d : Document} {ids : ViewMarkers}

theorem Seats.seat_point (h : d.Seats ids) : d.seat ids.point = none := by
  rw [seat, h.point]
  rfl

theorem Seats.seat_low (h : d.Seats ids) : d.seat ids.low = none := by
  rw [seat, h.low]
  rfl

theorem Seats.seat_high (h : d.Seats ids) : d.seat ids.high = none := by
  rw [seat, h.high]
  rfl

theorem resembles_setPosition {marker : MarkerId} (h : d.seat marker = none) (pos : Nat) :
    d.Resembles (d.setPosition marker pos) :=
  ⟨rfl, rfl, seat_setPosition_of_none h pos⟩

theorem edited_setPosition {marker : MarkerId} (h : d.seat marker = none) (pos : Nat) :
    d.Edited (d.setPosition marker pos) :=
  .kept (resembles_setPosition h pos)

end Document

namespace Act

variable {s : Session} {root : ViewId} {v : View} {d : Document}

theorem edits_makeChange (h : s.editor.WellFormed) (view : ViewId) (c : Change) :
    s.Edits ((makeChange view c).run s).2 := by
  rcases h.registry.dead_or_shows view with hdead | ⟨v, root, d, hs⟩
  · rw [makeChange, run_ask_bind_error (Editor.document_of_dead hdead)]
    exact .refl s
  · rcases makeChange_cases hs c with ⟨e, hrun⟩ | ⟨path, reason, hrun⟩ | ⟨hrange, -, hrun⟩
    · rw [hrun]
      exact .refl s
    · rw [hrun]
      exact .of_editor rfl
    · rw [hrun]
      exact Session.edits_revised hs hrange

theorem edits_goto (h : s.editor.WellFormed) (view : ViewId) (pos : Nat) :
    s.Edits ((goto view pos).run s).2 := by
  rcases h.registry.dead_or_shows view with hdead | ⟨v, root, d, hs⟩
  · rw [goto, run_ask_bind_error (Editor.view_of_dead hdead)]
    exact .refl s
  · have hseats := h.marking.seated view v root d hs
    rw [run_goto hs]
    exact Session.edits_onDocument hs.document (Document.edited_setPosition hseats.seat_point _)

theorem edits_widen (h : s.editor.WellFormed) (view : ViewId) :
    s.Edits ((widen view).run s).2 := by
  rcases h.registry.dead_or_shows view with hdead | ⟨v, root, d, hs⟩
  · rw [widen, run_ask_bind_error (Editor.view_of_dead hdead)]
    exact .refl s
  · have hseats := h.marking.seated view v root d hs
    rw [run_widen hs]
    apply Session.edits_onDocument hs.document
    refine (Document.edited_setPosition hseats.seat_low 0).trans (Document.edited_setPosition ?_ _)
    rw [Document.seat_setPosition_of_none hseats.seat_low, hseats.seat_high]

theorem edits_narrow (h : s.editor.WellFormed) (view : ViewId) (p q : Nat) :
    s.Edits ((narrow view p q).run s).2 := by
  rcases h.registry.dead_or_shows view with hdead | ⟨v, root, d, hs⟩
  · rw [narrow, run_ask_bind_error (Editor.view_of_dead hdead)]
    exact .refl s
  · have hseats := h.marking.seated view v root d hs
    rw [run_narrow hs]
    split
    · exact .refl s
    · apply Session.edits_onDocument hs.document
      have hlow := fun pos => Document.seat_setPosition_of_none hseats.seat_low pos
      have hhigh : ∀ pos, (d.setPosition v.markers.low pos).seat v.markers.high = none := fun pos =>
        (hlow pos _).trans hseats.seat_high
      refine (Document.edited_setPosition hseats.seat_low _).trans
        ((Document.edited_setPosition (hhigh _) _).trans (Document.edited_setPosition ?_ _))
      rw [Document.seat_setPosition_of_none (hhigh _), hlow, hseats.seat_point]

theorem edits_insert (h : s.editor.WellFormed) (view : ViewId) (text : Text) :
    s.Edits ((insert view text).run s).2 := by
  rcases h.registry.dead_or_shows view with hdead | ⟨v, root, d, hs⟩
  · rw [insert, run_ask_bind_error (Editor.view_of_dead hdead)]
    exact .refl s
  · have hseats := h.marking.seated view v root d hs
    rw [run_insert hs hseats]
    rcases makeChange_cases hs (.insert (d.extent v.markers).point text) with
      ⟨e, hrun⟩ | ⟨path, reason, hrun⟩ | ⟨hrange, -, hrun⟩
    · rw [hrun]
      exact .refl s
    · rw [hrun]
      exact .of_editor rfl
    · have hshown := Session.shows_revised (c := .insert (d.extent v.markers).point text) hs
      rw [hrun]
      simp only [run_changeShown hshown]
      refine (Session.edits_revised hs hrange).trans (Session.edits_onDocument hshown.document ?_)
      refine Document.edited_setPosition ?_ _
      rw [Document.seat_revised, hseats.seat_point]
      rfl

theorem edits_deleteRaw (h : s.editor.WellFormed) (view : ViewId) (start stop : Nat) :
    s.Edits ((deleteRaw view start stop).run s).2 := by
  rcases h.registry.dead_or_shows view with hdead | ⟨v, root, d, hs⟩
  · rw [deleteRaw, run_ask_bind_error (Editor.document_of_dead hdead)]
    exact .refl s
  · rw [run_deleteRaw hs]
    exact edits_makeChange h view _

theorem edits_deleteRegion (h : s.editor.WellFormed) (view : ViewId) (p q : Nat) :
    s.Edits ((deleteRegion view p q).run s).2 := by
  rcases h.registry.dead_or_shows view with hdead | ⟨v, root, d, hs⟩
  · rw [deleteRegion, run_ask_bind_error (Editor.accessibleRange_of_dead hdead p q)]
    exact .refl s
  · rw [run_deleteRegion hs]
    split
    · exact .refl s
    · exact edits_deleteRaw h view _ _

theorem edits_erase (h : s.editor.WellFormed) (view : ViewId) :
    s.Edits ((erase view).run s).2 := by
  rcases h.registry.dead_or_shows view with hdead | ⟨v, root, d, hs⟩
  · rw [run_erase_of_dead hdead]
    exact .refl s
  · rw [run_erase hs]
    split
    · exact .refl s
    · have hwiden := edits_widen h view
      have hmoves := moves_widen h view
      rw [run_widen hs] at hwiden hmoves
      exact hwiden.trans (edits_makeChange (hmoves.wellFormed h) view _)

end Act

namespace Session

variable {s : Session}

theorem edits_after (h : s.editor.WellFormed) {o : Op} (ho : o.isEdit = true) :
    s.Edits (s.after o) := by
  rw [after]
  cases o with
  | insert view text =>
      rw [Op.act, Act.run_map]
      exact Act.edits_insert h view text
  | deleteRegion view p q =>
      rw [Op.act, Act.run_map]
      exact Act.edits_deleteRegion h view p q
  | erase view =>
      rw [Op.act, Act.run_quietly]
      exact Act.edits_erase h view
  | insertRaw view pos text =>
      rw [Op.act, Act.run_map, Act.run_insertRaw]
      exact Act.edits_makeChange h view _
  | deleteRaw view start stop =>
      rw [Op.act, Act.run_map]
      exact Act.edits_deleteRaw h view start stop
  | goto view pos =>
      rw [Op.act, Act.run_map]
      exact Act.edits_goto h view pos
  | narrow view p q =>
      rw [Op.act, Act.run_quietly]
      exact Act.edits_narrow h view p q
  | widen view =>
      rw [Op.act, Act.run_quietly]
      exact Act.edits_widen h view
  | _ => cases ho

theorem AtRest.edits_afterAll (h : s.AtRest) {ops : List Op} (hops : ∀ o ∈ ops, o.isEdit = true) :
    s.Edits (s.afterAll ops) := by
  induction ops generalizing s with
  | nil => exact .refl s
  | cons o ops ih =>
      have hfirst := edits_after h.wellFormed (hops o List.mem_cons_self)
      exact hfirst.trans (ih (h.after o) fun q hq => hops q (List.mem_cons_of_mem o hq))

end Session

end Editing
