import Editing.Proofs.Session.Announcing
import Editing.Proofs.Session.Isolating
import Editing.Proofs.Session.Through

/-!
# What hooks are told of other texts

Hooks are told of the text that is edited, and of no other one. So an edit or an undo through a view
tells them nothing of a root that the view does not show.
-/

namespace Editing

/-- Whether the call tells a hook of a change of the root, or asks it to take one back. -/
def Call.hooks (root : ViewId) : Call → Bool
  | firstChange r | restore r _ _ _ _ => r == root
  | _ => false

namespace Session

variable {s t : Session} {root view r : ViewId}

/-- Hooks are told nothing of the root from one session to another. -/
abbrev Untold (root : ViewId) : Session → Session → Prop :=
  Tells fun call => call.hooks root = false

/-- The views are the same, and hooks are told nothing of the root unless the view shows it. -/
structure Bypasses (root view : ViewId) (s t : Session) : Prop where
  views : t.editor.views = s.editor.views
  untold : s.editor.rootOf view ≠ .ok root → Untold root s t

theorem Bypasses.rootOf_eq (h : Bypasses root view s t) :
    t.editor.rootOf view = s.editor.rootOf view := by
  rw [Editor.rootOf, Editor.rootOf, Editor.view, Editor.view, h.views]

instance (root view : ViewId) : Composes (Bypasses root view) where
  refl _ := ⟨rfl, fun _ => .of_trace rfl⟩
  trans h h' := by
    -- The view shows in between what it showed at first, as the views stay.
    refine ⟨h'.views.trans h.views, fun hview => (h.untold hview).trans (h'.untold ?_)⟩
    rwa [h.rootOf_eq]

theorem untold_revised (s : Session) (hr : r ≠ root) (d : Document) (c : Change) :
    Untold root s (s.revised r d c) := by
  have hne : (r == root) = false := beq_eq_false_iff_ne.mpr hr
  rw [revised]
  split
  · exact .of_trace rfl
  · obtain ⟨asked, htrace, hasked⟩ := trace_changed s r d c
    refine ⟨_, htrace, List.forall_mem_append.mpr ⟨fun call hcall => ?_, fun call hcall => ?_⟩⟩
    · rcases hasked with rfl | ⟨path, -, rfl⟩
      · cases hcall
      · rw [List.mem_singleton.mp hcall]
        rfl
    · rw [Document.announcement] at hcall
      split at hcall
      · rw [List.mem_singleton.mp hcall]
        exact hne
      · cases hcall

end Session

namespace Act

open Session

variable {root view r : ViewId}

theorem bypasses_changeShown (w : ViewId) (f : Document → Document) :
    Respects (Bypasses root view) (changeShown w f) :=
  .bind (.ask _) fun _ => .bind (.ask _) fun _ => .change fun _ => ⟨rfl, fun _ => .of_trace rfl⟩

theorem bypasses_makeChange (c : Change) : Respects (Bypasses root view) (makeChange view c) := by
  intro s
  cases hd : s.editor.document view with
  | error e =>
      rw [makeChange, run_ask_bind_error hd]
      exact Composes.refl s
  | ok d =>
      obtain ⟨v, r, hs⟩ := shows_of_document hd
      rcases makeChange_cases hs c with ⟨e, hrun⟩ | ⟨path, reason, hrun⟩ | ⟨-, -, hrun⟩
      · rw [hrun]
        exact Composes.refl s
      · rw [hrun]
        exact ⟨rfl, fun _ => .called s rfl⟩
      · rw [hrun]
        exact ⟨views_revised s r d c, fun hview =>
          untold_revised s (Editor.ne_of_rootOf hview hs.rootOf_eq) d c⟩

theorem bypasses_deleteRaw (start stop : Nat) :
    Respects (Bypasses root view) (deleteRaw view start stop) :=
  .bind (.ask _) fun _ => .bind (bypasses_makeChange _) fun _ => .pure _

theorem bypasses_insertAt (pos : Nat) (text : Text) :
    Respects (Bypasses root view) (insertAt view pos text) :=
  .bind (.ask _) fun _ => bypasses_makeChange _

theorem bypasses_noteProperty (pos n : Nat) (key : String) (value : Value) :
    Respects (Bypasses root view) (noteProperty view pos n key value) := by
  unfold noteProperty
  split
  · exact .throw _
  · exact bypasses_makeChange _

/-- An edit tells hooks of the root of its view only. -/
theorem bypasses_edit (edit : Edit) : Respects (Bypasses root view) (edit.through view).act := by
  cases edit with
  | insert text =>
      exact .map _ (.bind (.ask _) fun _ => .bind (.ask _) fun _ =>
        .bind (bypasses_insertAt _ _) fun _ => .bind (bypasses_changeShown _ _) fun _ => .pure _)
  | deleteRegion p q => exact .map _ (.bind (.ask _) fun _ => bypasses_deleteRaw _ _)
  | erase =>
      exact .quietly (.bind (.ask _) fun _ =>
        .bind (.bind (.ask _) fun _ => bypasses_changeShown _ _) fun _ => .bind (.ask _) fun _ =>
          .bind (bypasses_deleteRaw _ _) fun _ => .pure _)
  | noteProperty pos n key value => exact .quietly (bypasses_noteProperty _ _ _ _)
  | insertRaw pos text => exact .map _ (.bind (bypasses_makeChange _) fun _ => .pure _)
  | deleteRaw start stop => exact .map _ (bypasses_deleteRaw _ _)
  | notePropertyRaw start stop key value => exact .quietly (bypasses_makeChange _)

/-! ## Undo -/

theorem bypasses_goto (pos : Nat) : Respects (Bypasses root view) (goto view pos) :=
  .bind (.ask _) fun _ => .bind (.ask _) fun _ => .bind (bypasses_changeShown _ _) fun _ => .pure _

theorem bypasses_replay (hr : r ≠ root) (record : Record) :
    Respects (Bypasses root view) (replay view r record) := by
  have hne : (r == root) = false := beq_eq_false_iff_ne.mpr hr
  cases record with
  | insert pos n =>
      exact .bind (.ask _) fun _ => .bind (bypasses_makeChange _) fun _ =>
        .bind (bypasses_goto _) fun _ => .pure _
  | delete pos text as =>
      exact .bind (.ask _) fun _ => .bind (.ask _) fun _ => .bind (bypasses_insertAt _ _) fun _ =>
        .bind (bypasses_changeShown _ _) fun _ => .bind (bypasses_goto _) fun _ => .pure _
  | property start stop key value =>
      exact .bind (.ask _) fun _ s => ⟨rfl, fun _ => .called s hne⟩
  | boundary => exact .pure _

theorem bypasses_replayAll (hr : r ≠ root) (records : List Record) :
    Respects (Bypasses root view) (replayAll view r records) := by
  induction records with
  | nil => exact .pure _
  | cons record records ih => exact .bind (bypasses_replay hr record) fun _ => ih

/-- Hooks that take property changes back are told of the root whose log is replayed. -/
theorem untold_undo {s : Session} (hview : s.editor.rootOf view ≠ .ok root) :
    Untold root s ((undo view).run s).2 := by
  cases hroot : s.editor.rootOf view with
  | error e =>
      rw [undo, run_ask_bind_error hroot]
      exact .of_trace rfl
  | ok r =>
      have hr := Editor.ne_of_rootOf hview hroot
      rw [undo, run_ask_bind hroot]
      -- What is asked for is told of the root that the view shows, which is known from here on.
      refine Bypasses.untold ?_ hview
      refine Respects.bind (.ask _) (fun d => .guarded ?_) s
      refine .bind (.bind (.ask _) fun _ => .bind (bypasses_changeShown _ _) fun _ => .give _)
        fun group => .bind (bypasses_changeShown _ _) fun _ =>
          .bind (.attempt (bypasses_replayAll hr group)) fun outcome =>
            .bind (bypasses_changeShown _ _) fun _ => ?_
      cases outcome with
      | ok _ => exact .pure _
      | error e => exact .bind (bypasses_changeShown _ _) fun _ => .throw e

end Act

end Editing
