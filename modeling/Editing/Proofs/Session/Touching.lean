import Editing.Proofs.Session.Failing
import Editing.Proofs.Session.Homing
import Editing.Proofs.Session.Numbering

/-!
# Acts on single markers

An act that sets, detaches or marks a marker of the user touches this marker and nothing else: no
other marker moves, and neither do the point and bounds of any view. Only making and copying a
marker lets one more of them be known, the one that is returned.
-/

namespace Editing

/-- The marker that an operation looks up. -/
def Op.markerNamed : Op → Option MarkerId
  | placeMarker marker _ _ | detachMarker marker | copyMarker marker _ | markerPosition marker
  | markerView marker | markerAdvances marker | setMarkerAdvances marker _ => some marker
  | _ => none

namespace Editor

variable {e e' e'' : Editor} {marker id : MarkerId} {view root : ViewId}

/-- Nothing but one marker of the user is set anew, which is known before and after or not at
all. -/
structure Touches (marker : MarkerId) (e e' : Editor) : Prop where
  views : e'.views = e.views
  known : ∀ id, e'.Knows id ↔ e.Knows id
  documents : ∀ root, ∃ f : Document → Document,
    e'.documents.get? root = (e.documents.get? root).map f ∧
      ∀ d, (f d).length = d.length ∧
        ∀ id, id ≠ marker → (f d).markers.get? id = d.markers.get? id

theorem touches_of_documents (hviews : e'.views = e.views) (hknown : ∀ id, e'.Knows id ↔ e.Knows id)
    (hdocuments : e'.documents = e.documents) : e.Touches marker e' where
  views := hviews
  known := hknown
  documents root :=
    ⟨id, by rw [hdocuments, Option.map_id, id], fun _ => ⟨rfl, fun _ _ => rfl⟩⟩

instance : Session.Composes (Within (Touches marker)) where
  refl _ := touches_of_documents rfl (fun _ => Iff.rfl) rfl
  trans h h' :=
    { views := h'.views.trans h.views
      known := fun id => (h'.known id).trans (h.known id)
      documents := by
        intro root
        obtain ⟨f, hf, hsame⟩ := h.documents root
        obtain ⟨g, hg, hsame'⟩ := h'.documents root
        refine ⟨g ∘ f, by rw [hg, hf, Option.map_map], fun d => ⟨?_, fun id hid => ?_⟩⟩
        · exact (hsame' (f d)).1.trans (hsame d).1
        · exact ((hsame' (f d)).2 id hid).trans ((hsame d).2 id hid) }

/-- Views stay where they are when a marker is touched that is none of theirs. -/
theorem Touches.extent_eq (h : e.Touches marker e')
    (hout : ∀ view v, e.views.get? view = some v → v.markers.Outside marker) (view : ViewId) :
    e'.extent view = e.extent view := by
  cases hv : e.views.get? view with
  | none => rw [extent_of_dead hv, extent_of_dead (h.views ▸ hv)]
  | some v =>
      have hv' : e'.views.get? view = some v := h.views ▸ hv
      obtain ⟨f, hf, hsame⟩ := h.documents (v.base.getD view)
      cases hd : e.documents.get? (v.base.getD view) with
      | none =>
          rw [hd] at hf
          simp only [extent, document, rootOf, view_of_get hv, view_of_get hv', bind, Except.bind,
            pure, Except.pure, hd, hf, Option.map_none]
      | some d =>
          rw [hd] at hf
          have hs : e.Shows view v _ d := ⟨hv, rfl, hd⟩
          have hs' : e'.Shows view v _ (f d) := ⟨hv', rfl, hf⟩
          obtain ⟨hlength, hframe⟩ := hsame d
          have houtside := hout view v hv
          rw [hs.extent_eq, hs'.extent_eq, Document.extent_congr (hframe _ houtside.point.symm)
            (hframe _ houtside.low.symm) (hframe _ houtside.high.symm) hlength]

end Editor

/-! ## Acts -/

namespace Act

open Editor

variable {α β : Type} {s t : Session} {marker id : MarkerId}

theorem touches_changeShown (view : ViewId) {f : Document → Document}
    (hlength : ∀ d, (f d).length = d.length)
    (hframe : ∀ d id, id ≠ marker → (f d).markers.get? id = d.markers.get? id) :
    Respects (Within (Touches marker)) (changeShown view f) := by
  refine .bind (.ask _) fun _ => .bind (.ask _) fun root => .change fun s => ?_
  refine ⟨rfl, fun _ => Iff.rfl, fun r => ?_⟩
  rw [Session.editor_edit, Table.get?_modify]
  split
  · exact ⟨f, rfl, fun d => ⟨hlength d, hframe d⟩⟩
  · exact ⟨fun d => d, Option.map_id'.symm, fun _ => ⟨rfl, fun _ _ => rfl⟩⟩

/-- What is known of a marker changes. -/
theorem touches_modify (f : UserMarker → UserMarker) : Respects (Within (Touches marker))
    (change fun e => { e with userMarkers := e.userMarkers.modify marker f }) :=
  .change fun s => touches_of_documents rfl (knows_modify s.editor marker f) rfl

theorem touches_liftMarker (home : Option MarkerHome) :
    Respects (Within (Touches marker)) (liftMarker marker home) := by
  cases home with
  | none => exact .pure _
  | some home =>
      exact touches_changeShown _ (fun _ => rfl) fun _ _ hid => Table.get?_erase_of_ne _ hid

theorem touches_placeMarker (marker : MarkerId) (view : ViewId) (pos : Nat) :
    Respects (Within (Touches marker)) (placeMarker marker view pos) :=
  .bind (.ask _) fun _ => .bind (.ask _) fun root => .bind (.ask _) fun _ =>
    .bind (touches_liftMarker _) fun _ =>
      .bind (touches_changeShown root (fun _ => rfl) fun _ _ hid => Table.get?_insert_of_ne _ _ hid)
        fun _ => touches_modify _

theorem touches_detachMarker (marker : MarkerId) :
    Respects (Within (Touches marker)) (detachMarker marker) :=
  .bind (.ask _) fun _ => .bind (touches_liftMarker _) fun _ => touches_modify _

theorem touches_setMarkerAdvances (marker : MarkerId) (advances : Bool) :
    Respects (Within (Touches marker)) (setMarkerAdvances marker advances) := by
  refine .bind (.ask _) fun u => ?_
  split
  · exact touches_modify _
  · refine .bind (touches_changeShown _ (fun _ => rfl) fun _ _ hid => ?_) fun _ => touches_modify _
    exact (Table.get?_modify _ _ _ _).trans (if_neg hid)

/-- What looks up a marker touches no other one, unless it copies the marker. -/
theorem touches_named {o : Op} (ho : o.markerNamed = some marker)
    (hcopy : ∀ advances, o ≠ .copyMarker marker advances) :
    Respects (Within (Touches marker)) o.act := by
  cases o with
  | placeMarker _ view pos =>
      cases ho
      exact .quietly (touches_placeMarker _ _ _)
  | detachMarker _ =>
      cases ho
      exact .quietly (touches_detachMarker _)
  | setMarkerAdvances _ advances =>
      cases ho
      exact .quietly (touches_setMarkerAdvances _ _)
  | copyMarker _ advances =>
      cases ho
      exact absurd rfl (hcopy advances)
  | markerPosition _ | markerView _ | markerAdvances _ => exact .map _ (.ask _)
  | _ => cases ho

/-! ## Copies -/

/-- The act gives nothing but this answer. -/
def Gives (a : α) (act : Act α) : Prop := ∀ s b t, act.run s = (.ok b, t) → b = a

theorem Gives.bind {a : β} (act : Act α) {next : α → Act β} (h : ∀ x, Gives a (next x)) :
    Gives a (act >>= next) := by
  intro s b t hrun
  rw [run_bind] at hrun
  split at hrun
  · exact h _ _ _ _ hrun
  · cases hrun

theorem Gives.pure (a : α) : Gives a (pure a : Act α) := by
  intro s b t hrun
  cases hrun
  rfl

theorem gives_settleCopy (copy : MarkerId) (advances : Bool) (place : Option ViewId)
    (pos : Option Nat) : Gives copy (settleCopy copy advances place pos) := by
  refine .bind _ fun _ => ?_
  split <;> exact .bind _ fun _ => .pure _

theorem touches_settleCopy (copy : MarkerId) (advances : Bool) (place : Option ViewId)
    (pos : Option Nat) : Respects (Within (Touches copy)) (settleCopy copy advances place pos) := by
  refine .bind (touches_setMarkerAdvances _ _) fun _ => ?_
  split
  · exact .bind (touches_placeMarker _ _ _) fun _ => .pure _
  · exact .bind (touches_detachMarker _) fun _ => .pure _

/-- A copy gets the next number, and then nothing is touched but the copy; or nothing changes. -/
theorem copyMarker_cases (h : s.editor.WellFormed) (source : MarkerId) (advances : Bool) :
    (∃ e t, (copyMarker source advances).run s = (.error e, t) ∧ t.editor = s.editor) ∨
      ∃ t, (copyMarker source advances).run s = (.ok s.editor.nextMarker, t) ∧
        (makeMarker.run s).2.editor.Touches s.editor.nextMarker t.editor := by
  rcases hrun : (copyMarker source advances).run s with ⟨e | copy, t⟩
  · left
    refine ⟨e, t, rfl, ?_⟩
    cases Atomic.copyMarker h source advances e t hrun with
    | same => rfl
    | refused => rfl
  · right
    rw [copyMarker_eq] at hrun
    cases hplace : s.editor.markerView source with
    | error e =>
        rw [run_ask_bind_error hplace] at hrun
        cases hrun
    | ok place =>
        rw [run_ask_bind hplace] at hrun
        cases hpos : s.editor.markerPosition source with
        | error e =>
            rw [run_ask_bind_error hpos] at hrun
            cases hrun
        | ok pos =>
            rw [run_ask_bind hpos, run_bind_ok (run_makeMarker s)] at hrun
            have htouches := touches_settleCopy s.editor.nextMarker advances place pos
              (makeMarker.run s).2
            obtain rfl := gives_settleCopy _ _ _ _ _ _ _ hrun
            rw [run_makeMarker] at htouches ⊢
            rw [hrun] at htouches
            exact ⟨t, rfl, htouches⟩

end Act

end Editing
