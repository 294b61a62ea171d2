import Editing.Proofs.Session.Steady

/-!
# Acts that change a text

Every act that edits, seen from the view it goes through: which checks it makes, in which order, and
the session that it leaves. An act that fails has at most asked for a lock.
-/

namespace Editing

/-- The document after a change, unless there is nothing to insert or to delete. -/
def Document.revised (d : Document) (c : Change) : Document :=
  if c.isVoid then d else Document.apply { d with locked := d.locked || d.wanted.isSome } c

/-- The session after a change, unless there is nothing to insert or to delete. -/
def Session.revised (s : Session) (root : ViewId) (d : Document) (c : Change) : Session :=
  if c.isVoid then s else s.changed root d c

/-- The file whose lock is refused when a change is about to be made, and the reason. -/
def Session.hindered? (s : Session) (root : ViewId) (d : Document) (c : Change) :
    Option (Path × Failure) :=
  if c.isVoid then none else s.refused? root d

/-- The document once its whole text is accessible in a view. -/
def Document.widened (d : Document) (ids : ViewMarkers) : Document :=
  (d.setPosition ids.low 0).setPosition ids.high d.length

namespace Session

variable {s : Session} {view root : ViewId} {v : View} {d : Document}

theorem shows_widened (hs : s.editor.Shows view v root d) :
    (s.widened root v).editor.Shows view v root (d.widened v.markers) :=
  shows_onDocument_self hs fun d => d.widened v.markers

theorem shows_revised {c : Change} (hs : s.editor.Shows view v root d) :
    (s.revised root d c).editor.Shows view v root (d.revised c) := by
  rw [revised, Document.revised]
  split
  · exact hs
  · exact shows_changed hs.document hs

@[simp] theorem views_revised (s : Session) (root : ViewId) (d : Document) (c : Change) :
    (s.revised root d c).editor.views = s.editor.views := by
  rw [revised]
  split
  · rfl
  · exact views_changed s root d c

@[simp] theorem userMarkers_revised (s : Session) (root : ViewId) (d : Document) (c : Change) :
    (s.revised root d c).editor.userMarkers = s.editor.userMarkers := by
  rw [revised]
  split
  · rfl
  · exact userMarkers_changed s root d c

theorem locks_revised (s : Session) (root : ViewId) (d : Document) (c : Change) :
    (s.revised root d c).locks = s.locks := by
  rw [revised]
  split
  · rfl
  · exact locks_changed s root d c

theorem documents_revised_of_ne {c : Change} (hd : s.editor.documents.get? root = some d)
    {r : ViewId} (hr : r ≠ root) :
    (s.revised root d c).editor.documents.get? r = s.editor.documents.get? r := by
  rw [revised]
  split
  · rfl
  · rw [documents_changed hd, if_neg hr]

/-- Without a protocol no change is refused for want of a lock. -/
theorem hindered?_of_no_locks (hlocks : s.locks = none) (root : ViewId) (d : Document)
    (c : Change) : s.hindered? root d c = none := by
  have hrefused : s.refused? root d = none := by
    rw [refused?]
    cases d.wanted with
    | none => rfl
    | some path => rw [Option.bind_some, refusal?, hlocks, Option.bind_none, Option.map_none]
  rw [hindered?, hrefused, ite_self]

/-! ## Changes of a document that is another one in other respects -/

/-- The document is changed in respects that neither locks nor announcements depend on. -/
structure Aside (g : Document → Document) (d : Document) : Prop where
  wanted : (g d).wanted = d.wanted
  modified : (g d).isModified = d.isModified
  accepts : (g d).log.acceptsRecords = d.log.acceptsRecords
  locked : ∀ l, { g d with locked := l } = g { d with locked := l }

variable {g g' : Document → Document} {c : Change}

theorem prepared_onDocument (hd : s.editor.documents.get? root = some d) (hg : Aside g d) :
    (s.onDocument root g).prepared root (g d) = (s.prepared root d).onDocument root g := by
  rw [prepared, prepared, hg.wanted]
  cases d.wanted with
  | none => rfl
  | some path =>
      have hgranted : (s.onDocument root g).granted root path =
          (s.granted root path).onDocument root g := granted_edit s _ root path
      simp only [hgranted]
      exact onDocument_swap (by rw [editor_granted, hd]) (hg.locked true)

theorem announced_onDocument (hg : Aside g d) (s : Session) (root : ViewId) :
    (s.onDocument root g).announced root (g d) = (s.announced root d).onDocument root g := by
  rw [announced, announced, hg.accepts, hg.modified]
  split <;> rfl

/-- A change is made in the same way whatever the document is in other respects. -/
theorem revised_onDocument (hd : s.editor.documents.get? root = some d) (hg : Aside g d)
    (h : (g d).revised c = g' (d.revised c)) :
    (s.onDocument root g).revised root (g d) c = (s.revised root d c).onDocument root g' := by
  rw [Document.revised, Document.revised, hg.wanted] at h
  rw [revised, revised]
  cases hvoid : c.isVoid with
  | true =>
      rw [hvoid, if_pos rfl, if_pos rfl] at h
      exact onDocument_congr hd h
  | false =>
      have hlocked : (g d).locked = d.locked :=
        (congrArg (·.locked) (hg.locked d.locked)).symm
      rw [hvoid, if_neg Bool.false_ne_true, if_neg Bool.false_ne_true, hg.locked, hlocked] at h
      rw [if_neg Bool.false_ne_true, if_neg Bool.false_ne_true, changed, changed,
        prepared_onDocument hd hg, announced_onDocument hg]
      refine onDocument_swap (by rw [editor_announced, documents_prepared hd, if_pos rfl]) ?_
      exact h

end Session

namespace Act

variable {s : Session} {view root : ViewId} {v : View} {d : Document}

theorem run_lockForChange (root : ViewId) (d : Document) (s : Session) :
    (lockForChange root d).run s =
      match s.refused? root d with
      | none => (.ok (), s.prepared root d)
      | some (path, reason) =>
          (.error (.lockRefused reason), s.called (.lockRefused root path)) := by
  by_cases hheld : d.isModified || d.locked
  · simp [lockForChange, Session.refused?, Session.prepared, Document.wanted, hheld]
  · cases hfile : d.file with
    | none =>
        simp [lockForChange, Session.refused?, Session.prepared, Document.wanted, hheld, hfile]
    | some path =>
        have hwanted : d.wanted = some path := by rw [Document.wanted, if_neg hheld, hfile]
        simp only [lockForChange, if_neg hheld, hfile, run_bind, run_lock, Session.refused?,
          Session.prepared, hwanted, Option.bind_some]
        cases s.refusal? root path with
        | none => rfl
        | some reason => rfl

theorem run_announceChange (root : ViewId) (d : Document) (s : Session) :
    (announceChange root d).run s = (.ok (), s.announced root d) := by
  rw [announceChange, run_ite, Session.announced]
  split <;> rfl

/-- A change is refused when it is out of range, when the view is protected and no undo is under
way, or when the lock of the file is refused. -/
theorem run_makeChange (h : s.editor.Shows view v root d) (c : Change) :
    (makeChange view c).run s =
      match c.rangeError d.length with
      | some e => (.error e, s)
      | none =>
          if c.isVoid = false ∧
              (v.readOnly && !s.editor.inhibitReadOnly && !d.log.replaying) = true then
            (.error (.readOnly root), s)
          else
            match s.hindered? root d c with
            | some (path, reason) =>
                (.error (.lockRefused reason), s.called (.lockRefused root path))
            | none => (.ok (), s.revised root d c) := by
  rw [makeChange, run_ask_bind h.document_eq, run_ask_bind h.rootOf_eq,
    run_ask_bind h.isProtected_eq]
  cases hrange : c.rangeError d.length with
  | some e => rfl
  | none =>
      cases hvoid : c.isVoid with
      | true => simp [Session.hindered?, Session.revised, hvoid]
      | false =>
          simp only [Bool.false_eq_true, if_false, true_and, run_ite, Session.hindered?,
            Session.revised, hvoid]
          split
          · rfl
          · rw [run_bind, run_lockForChange]
            cases s.refused? root d with
            | none => simp only [run_bind, run_announceChange, run_changeDocument, Session.changed]
            | some refusal => rfl

theorem makeChange_cases (h : s.editor.Shows view v root d) (c : Change) :
    (∃ e, (makeChange view c).run s = (.error e, s)) ∨
      (∃ path reason, (makeChange view c).run s =
        (.error (.lockRefused reason), s.called (.lockRefused root path))) ∨
      (c.rangeError d.length = none ∧ s.hindered? root d c = none ∧
        (makeChange view c).run s = (.ok (), s.revised root d c)) := by
  rw [run_makeChange h]
  cases hrange : c.rangeError d.length with
  | some e => exact Or.inl ⟨e, rfl⟩
  | none =>
      simp only
      split
      · exact Or.inl ⟨_, rfl⟩
      · cases hrefused : s.hindered? root d c with
        | none => exact Or.inr (Or.inr ⟨trivial, rfl, rfl⟩)
        | some refusal =>
            obtain ⟨path, reason⟩ := refusal
            exact Or.inr (Or.inl ⟨path, reason, rfl⟩)

/-! ## The accessible part -/

theorem run_goto (h : s.editor.Shows view v root d) (pos : Nat) :
    (goto view pos).run s =
      (.ok (Position.clamp (d.extent v.markers).low (d.extent v.markers).high pos),
        s.onDocument root (·.setPosition v.markers.point
          (Position.clamp (d.extent v.markers).low (d.extent v.markers).high pos))) := by
  rw [goto, run_ask_bind h.view_eq, run_ask_bind h.extent_eq, run_bind, run_changeShown h]
  rfl

theorem run_widen (h : s.editor.Shows view v root d) :
    (widen view).run s = (.ok (), s.widened root v) := by
  rw [widen, run_ask_bind h.view_eq, run_changeShown h, Session.widened]

theorem run_narrow (h : s.editor.Shows view v root d) (p q : Nat) :
    (narrow view p q).run s =
      if d.length < (Position.ordered p q).2 then
        (.error (.outOfRange (Position.ordered p q).1 (Position.ordered p q).2 0 d.length), s)
      else
        (.ok (), s.onDocument root (·.setExtent v.markers
          ⟨Position.clamp (Position.ordered p q).1 (Position.ordered p q).2
            (d.extent v.markers).point, (Position.ordered p q).1, (Position.ordered p q).2⟩)) := by
  rw [narrow, run_ask_bind h.view_eq, run_ask_bind h.document_eq]
  rcases hpq : Position.ordered p q with ⟨start, stop⟩
  simp only [run_bind, run_ite]
  split
  · rfl
  · rw [run_changeShown h]

/-! ## Edits -/

theorem run_insertAt (h : s.editor.Shows view v root d) (pos : Nat) (text : Text) :
    (insertAt view pos text).run s =
      if pos < (d.extent v.markers).low ∨ (d.extent v.markers).high < pos then
        (.error (.outOfRange pos pos (d.extent v.markers).low (d.extent v.markers).high), s)
      else (makeChange view (.insert pos text)).run s := by
  have hpos : Position.ordered pos pos = (pos, pos) := by
    rw [Position.ordered, if_pos (Nat.le_refl _)]
  have hrange := h.accessibleRange_eq pos pos
  rw [hpos] at hrange
  rw [insertAt]
  split
  · rename_i hout
    rw [run_ask_bind_error (by rw [hrange, if_pos hout])]
  · rename_i hout
    rw [run_ask_bind (by rw [hrange, if_neg hout])]

/-- Point is always accessible, so an insertion there fails only as a change fails. -/
theorem run_insert (h : s.editor.Shows view v root d) (hseats : d.Seats v.markers) (text : Text) :
    (insert view text).run s =
      match (makeChange view (.insert (d.extent v.markers).point text)).run s with
      | (.error e, t) => (.error e, t)
      | (.ok _, t) =>
          match (changeShown view
            (·.setPosition v.markers.point ((d.extent v.markers).point + text.length))).run t with
          | (.error e, t) => (.error e, t)
          | (.ok _, t) => (.ok text.length, t) := by
  have hpoint : s.editor.point view = .ok (d.extent v.markers).point := by
    rw [Editor.point, h.extent_eq]
    rfl
  have hin : ¬((d.extent v.markers).point < (d.extent v.markers).low ∨
      (d.extent v.markers).high < (d.extent v.markers).point) := by
    have hlow := hseats.low_le
    have hhigh := hseats.le_high
    omega
  rw [insert, run_ask_bind h.view_eq, run_ask_bind hpoint, run_bind, run_insertAt h, if_neg hin]
  rcases (makeChange view (.insert (d.extent v.markers).point text)).run s with ⟨_ | _, t⟩
  · rfl
  · simp only
    rw [run_bind]
    rcases (changeShown view
      (·.setPosition v.markers.point ((d.extent v.markers).point + text.length))).run t
      with ⟨_ | _, t⟩
    · rfl
    · rfl

theorem run_insertRaw (view : ViewId) (pos : Nat) (text : Text) (s : Session) :
    (insertRaw view pos text).run s =
      (((makeChange view (.insert pos text)).run s).1.map fun _ => text.length,
        ((makeChange view (.insert pos text)).run s).2) := by
  rw [insertRaw, run_bind]
  rcases (makeChange view (.insert pos text)).run s with ⟨_ | _, t⟩
  · rfl
  · rfl

theorem run_deleteRaw (h : s.editor.Shows view v root d) (start stop : Nat) :
    (deleteRaw view start stop).run s =
      (((makeChange view (.delete start stop)).run s).1.map fun _ => d.text.slice start stop,
        ((makeChange view (.delete start stop)).run s).2) := by
  rw [deleteRaw, run_ask_bind h.document_eq, run_bind]
  rcases (makeChange view (.delete start stop)).run s with ⟨_ | _, t⟩
  · rfl
  · rfl

theorem run_deleteRegion (h : s.editor.Shows view v root d) (p q : Nat) :
    (deleteRegion view p q).run s =
      if (Position.ordered p q).1 < (d.extent v.markers).low ∨
          (d.extent v.markers).high < (Position.ordered p q).2 then
        (.error (.outOfRange (Position.ordered p q).1 (Position.ordered p q).2
          (d.extent v.markers).low (d.extent v.markers).high), s)
      else (deleteRaw view (Position.ordered p q).1 (Position.ordered p q).2).run s := by
  have hrange := h.accessibleRange_eq p q
  rw [deleteRegion]
  split
  · rename_i hout
    rw [run_ask_bind_error (by rw [hrange, if_pos hout])]
  · rename_i hout
    rw [run_ask_bind (by rw [hrange, if_neg hout])]

theorem run_refuseReadOnly (h : s.editor.Shows view v root d) :
    (ask (·.refuseReadOnly view)).run s =
      if (v.readOnly && !s.editor.inhibitReadOnly) = true then (.error (.readOnly view), s)
      else (.ok (), s) := by
  rw [run_ask, Editor.refuseReadOnly, h.isProtected_eq]
  simp only [bind, Except.bind]
  split <;> rfl

theorem run_erase_of_dead (h : s.editor.views.get? view = none) :
    (erase view).run s = (.error (.noLiveView view), s) := by
  rw [erase, run_ask_bind_error (Editor.refuseReadOnly_of_dead h)]

/-- Erasing makes the whole text accessible first, also when nothing is deleted then. -/
theorem run_erase (h : s.editor.Shows view v root d) :
    (erase view).run s =
      if (v.readOnly && !s.editor.inhibitReadOnly) = true then (.error (.readOnly view), s)
      else
        (((makeChange view (.delete 0 d.length)).run (s.widened root v)).1.map fun _ => (),
          ((makeChange view (.delete 0 d.length)).run (s.widened root v)).2) := by
  have hrefuse := run_refuseReadOnly h
  cases hlocked : v.readOnly && !s.editor.inhibitReadOnly with
  | true =>
      rw [hlocked, if_pos rfl] at hrefuse
      rw [erase, run_bind_error hrefuse, if_pos rfl]
  | false =>
      rw [hlocked, if_neg Bool.false_ne_true] at hrefuse
      have hs := Session.shows_onDocument_self h fun d =>
        (d.setPosition v.markers.low 0).setPosition v.markers.high d.length
      have hsize : (s.widened root v).editor.size view = .ok d.length := by
        rw [Session.widened, Editor.size, hs.document_eq]
        rfl
      rw [erase, run_bind_ok hrefuse, run_bind_ok (run_widen h), run_ask_bind hsize, run_bind,
        Session.widened, run_deleteRaw hs, if_neg Bool.false_ne_true]
      rcases (makeChange view (.delete 0 d.length)).run (s.onDocument root fun d =>
        (d.setPosition v.markers.low 0).setPosition v.markers.high d.length) with ⟨_ | _, t⟩
      · rfl
      · rfl

/-- When the view is not protected, only a lock stands in the way of deleting the whole text, which
has been made accessible by then. -/
theorem run_erase_of_unprotected (h : s.editor.Shows view v root d)
    (hunprotected : (v.readOnly && !s.editor.inhibitReadOnly) = false) :
    (erase view).run s =
      match s.hindered? root d (.delete 0 d.length) with
      | some (path, reason) =>
          (.error (.lockRefused reason), (s.widened root v).called (.lockRefused root path))
      | none =>
          (.ok (), (s.widened root v).revised root (d.widened v.markers) (.delete 0 d.length)) := by
  have hrange : (Change.delete 0 d.length).rangeError (d.widened v.markers).length = none :=
    if_neg (show ¬(d.length < 0 ∨ d.length < d.length) by omega)
  have hopen : (v.readOnly && !(s.widened root v).editor.inhibitReadOnly &&
      !(d.widened v.markers).log.replaying) = false := by
    rw [show (s.widened root v).editor.inhibitReadOnly = s.editor.inhibitReadOnly from rfl,
      hunprotected, Bool.false_and]
  have hhindered : (s.widened root v).hindered? root (d.widened v.markers) (.delete 0 d.length) =
      s.hindered? root d (.delete 0 d.length) := rfl
  rw [run_erase h, hunprotected, if_neg Bool.false_ne_true,
    run_makeChange (Session.shows_widened h), hrange]
  simp only [hopen, Bool.false_eq_true, and_false, if_false, hhindered]
  rcases s.hindered? root d (.delete 0 d.length) with _ | ⟨path, reason⟩
  · rfl
  · rfl

theorem run_noteProperty (view : ViewId) (pos length : Nat) (key : String) (value : Value)
    (s : Session) :
    (noteProperty view pos length key value).run s =
      if maxPosition < pos + length then (.error (.lengthOverflow length), s)
      else (makeChange view (.property pos (pos + length) key value)).run s := by
  rw [noteProperty, run_ite]
  rfl

end Act

end Editing
