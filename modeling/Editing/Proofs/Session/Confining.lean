import Editing.Proofs.Session.Consecutive

/-!
# Edits that stay in one document

What an edit or an undo does through a view is done to one document, whether it succeeds or not. The
views stay as they are, the current one too, and a log that was enabled stays enabled.
-/

namespace Editing

namespace Session

/-- Nothing but the document of a root may have changed, and its log is enabled if it was. -/
structure Confined (root : ViewId) (s t : Session) : Prop where
  views : t.editor.views = s.editor.views
  current : t.editor.current = s.editor.current
  others : ∀ r, r ≠ root → t.editor.documents.get? r = s.editor.documents.get? r
  enabled : ∀ d, s.editor.documents.get? root = some d →
    ∃ c, t.editor.documents.get? root = some c ∧ c.log.isEnabled = d.log.isEnabled

variable {s t u : Session} {view root : ViewId} {v : View} {d : Document}

theorem Confined.of_editor (h : t.editor = s.editor) : Confined root s t where
  views := by rw [h]
  current := by rw [h]
  others _ _ := by rw [h]
  enabled d hd := ⟨d, h ▸ hd, rfl⟩

theorem Confined.refl (root : ViewId) (s : Session) : Confined root s s := .of_editor rfl

theorem Confined.trans (h : Confined root s t) (h' : Confined root t u) : Confined root s u where
  views := h'.views.trans h.views
  current := h'.current.trans h.current
  others r hr := (h'.others r hr).trans (h.others r hr)
  enabled d hd := by
    obtain ⟨b, hb, hdb⟩ := h.enabled d hd
    obtain ⟨c, hc, hbc⟩ := h'.enabled b hb
    exact ⟨c, hc, hbc.trans hdb⟩

/-- A view of the root shows its document, whatever has become of it. -/
theorem Confined.shows (h : Confined root s t) (hs : s.editor.Shows view v root d) :
    ∃ c, t.editor.Shows view v root c ∧ c.log.isEnabled = d.log.isEnabled := by
  obtain ⟨c, hc, hcd⟩ := h.enabled d hs.document
  exact ⟨c, ⟨h.views.symm ▸ hs.live, hs.root_eq, hc⟩, hcd⟩

theorem confined_onDocument {f : Document → Document}
    (hf : ∀ d, s.editor.documents.get? root = some d → (f d).log.isEnabled = d.log.isEnabled) :
    Confined root s (s.onDocument root f) where
  views := rfl
  current := rfl
  others _ hr := get?_onDocument_of_ne _ hr f
  enabled d hd := ⟨f d, get?_onDocument_self hd f, hf d hd⟩

theorem confined_prepared (s : Session) (root : ViewId) (d : Document) :
    Confined root s (s.prepared root d) := by
  have hlocked : Confined root s (s.onDocument root fun d => { d with locked := true }) :=
    confined_onDocument fun _ _ => rfl
  have heditor := editor_prepared s root d
  split at heditor
  · exact hlocked.trans (.of_editor heditor)
  · exact .of_editor heditor

theorem confined_revised (s : Session) (root : ViewId) (d : Document) (c : Change) :
    Confined root s (s.revised root d c) := by
  rw [revised]
  split
  · exact .refl root s
  · refine (confined_prepared s root d).trans (.trans (.of_editor (editor_announced _ root d)) ?_)
    refine confined_onDocument fun d _ => ?_
    rcases d.log_apply c with ⟨r, hlog⟩ | ⟨pos, n, hlog⟩
    · rw [hlog, UndoLog.isEnabled_record]
    · rw [hlog, UndoLog.isEnabled_recordInsert]

theorem confined_replayed (s : Session) (root : ViewId) (v : View) (d : Document) (r : Record) :
    Confined root s (s.replayed root v d r) := by
  cases r with
  | insert pos n =>
      exact (confined_revised s root d _).trans (confined_onDocument fun _ _ => rfl)
  | delete pos text as =>
      refine ((confined_revised s root d _).trans (confined_onDocument fun c _ => ?_)).trans
        (confined_onDocument fun _ _ => rfl)
      rw [Document.log_readjustAll]
  | property start stop key value => exact .of_editor rfl
  | boundary => exact .refl root s

theorem confined_replayedAll (s : Session) (root : ViewId) (v : View) (d : Document)
    (rs : List Record) : Confined root s (s.replayedAll root v d rs) := by
  induction rs generalizing s d with
  | nil => exact .refl root s
  | cons r rs ih => exact (confined_replayed s root v d r).trans (ih _ _)

theorem confined_ended (s : Session) (root : ViewId) :
    Confined root s (s.onDocument root Document.ended) :=
  confined_onDocument fun d _ => UndoLog.isEnabled_boundary d.log.endReplay

end Session

namespace Act

variable {s : Session} {view root : ViewId} {v : View} {d : Document}

theorem confined_makeChange (hs : s.editor.Shows view v root d) (c : Change) :
    Session.Confined root s ((makeChange view c).run s).2 := by
  rcases makeChange_cases hs c with ⟨e, hrun⟩ | ⟨path, reason, hrun⟩ | ⟨-, -, hrun⟩
  · rw [hrun]
    exact .refl root s
  · rw [hrun]
    exact .of_editor rfl
  · rw [hrun]
    exact Session.confined_revised s root d c

theorem confined_insert (hs : s.editor.Shows view v root d) (hseats : d.Seats v.markers)
    (text : Text) : Session.Confined root s ((insert view text).run s).2 := by
  have hchange := confined_makeChange hs (.insert (d.extent v.markers).point text)
  rw [run_insert hs hseats]
  rcases hrun : (makeChange view (.insert (d.extent v.markers).point text)).run s with ⟨e | a, t⟩
  · rw [hrun] at hchange
    exact hchange
  · rw [hrun] at hchange
    obtain ⟨c, hc, -⟩ := hchange.shows hs
    simp only [run_changeShown hc]
    exact hchange.trans (Session.confined_onDocument fun _ _ => rfl)

theorem confined_deleteRegion (hs : s.editor.Shows view v root d) (p q : Nat) :
    Session.Confined root s ((deleteRegion view p q).run s).2 := by
  rw [run_deleteRegion hs]
  split
  · exact .refl root s
  · rw [run_deleteRaw hs]
    exact confined_makeChange hs _

theorem confined_erase (hs : s.editor.Shows view v root d) :
    Session.Confined root s ((erase view).run s).2 := by
  rw [run_erase hs]
  split
  · exact .refl root s
  · have hwidened : Session.Confined root s (s.widened root v) :=
      Session.confined_onDocument fun _ _ => rfl
    exact hwidened.trans (confined_makeChange (Session.shows_onDocument_self hs _) _)

theorem confined_noteProperty (hs : s.editor.Shows view v root d) (pos length : Nat)
    (key : String) (value : Value) :
    Session.Confined root s ((noteProperty view pos length key value).run s).2 := by
  rw [run_noteProperty]
  split
  · exact .refl root s
  · exact confined_makeChange hs _

theorem confined_undo (h : s.editor.WellFormed) (hs : s.editor.Shows view v root d) :
    Session.Confined root s ((undo view).run s).2 := by
  have hbegun : Session.Confined root s (s.onDocument root fun _ => d.begun) := by
    refine Session.confined_onDocument fun c hc => ?_
    obtain rfl := Option.some.inj (hs.document.symm.trans hc)
    exact Document.isEnabled_begun d
  cases hd : d.log.isEnabled with
  | false =>
      rw [run_undo_of_disabled h hs hd]
      exact .refl root s
  | true =>
      cases hgroup : d.log.boundary.nextGroup.1 with
      | error e =>
          rw [run_undo_of_exhausted h hs hd hgroup]
          refine Session.confined_onDocument fun c hc => ?_
          obtain rfl := Option.some.inj (hs.document.symm.trans hc)
          exact Document.isEnabled_begun d
      | ok group =>
          rcases undo_cases h hs hd hgroup with
            ⟨-, hrun⟩ | ⟨done, r, rest, e, t, -, -, hblocks, hrun⟩
          · rw [hrun]
            exact (hbegun.trans (Session.confined_replayedAll _ root v d.begun group)).trans
              (Session.confined_ended _ root)
          · rw [hrun]
            have hdone := hbegun.trans (Session.confined_replayedAll _ root v d.begun done)
            have hended := (hdone.trans (.of_editor hblocks.editor_eq)).trans
              (Session.confined_ended t root)
            exact hended.trans (Session.confined_onDocument fun _ _ => rfl)

end Act

end Editing
