import Editing.Proofs.Session.Changing

/-!
# Acts on markers and overlays

Setting markers and overlays is a sequence of moves that touch no text and no log.
-/

namespace Editing

namespace Act

variable {α β : Type} {s : Session} {root : ViewId}

theorem moves_ask_bind {question : Editor → Except Error α} {next : α → Act β}
    (h : ∀ a, question s.editor = .ok a → Session.Moves [] s ((next a).run s).2) :
    Session.Moves [] s ((ask question >>= next).run s).2 := by
  cases hasked : question s.editor with
  | error e =>
      rw [run_ask_bind_error hasked]
      exact .refl s
  | ok a =>
      rw [run_ask_bind hasked]
      exact h a hasked

theorem moves_bind {act : Act α} {next : α → Act β} (hact : Session.Moves [] s (act.run s).2)
    (hnext : ∀ a t, act.run s = (.ok a, t) → Session.Moves [] t ((next a).run t).2) :
    Session.Moves [] s ((act >>= next).run s).2 := by
  rcases hrun : act.run s with ⟨e | a, t⟩
  · rw [run_bind_error hrun]
    rwa [hrun] at hact
  · rw [run_bind_ok hrun]
    rw [hrun] at hact
    exact hact.trans (hnext a t hrun)

/-! ## Markers -/

theorem run_makeMarker (s : Session) :
    makeMarker.run s = (.ok s.editor.nextMarker, s.edit fun e =>
      { e with
        userMarkers := e.userMarkers.insert s.editor.nextMarker ⟨none, false⟩
        nextMarker := s.editor.nextMarker + 1 }) := rfl

theorem get?_of_userMarker {e : Editor} {marker : MarkerId} {u : UserMarker}
    (h : e.userMarker marker = .ok u) : e.userMarkers.get? marker = some u := by
  unfold Editor.userMarker at h
  split at h
  · cases h
    assumption
  · cases h

/-- The root where a marker is has itself as its root. -/
theorem shows_home (h : s.editor.WellFormed) {marker : MarkerId} {u : UserMarker}
    {home : MarkerHome} (hu : s.editor.userMarkers.get? marker = some u)
    (hhome : u.home = some home) :
    ∃ w d, s.editor.Shows home.root w home.root d ∧ d.Keeps marker u.advances := by
  obtain ⟨v, d, hs, hkeeps⟩ := h.marking.homed marker u home hu hhome
  obtain ⟨w, hw, -⟩ := h.registry.shows_root hs.document
  exact ⟨w, d, hw, hkeeps⟩

theorem run_liftMarker (h : s.editor.WellFormed) {marker : MarkerId} {u : UserMarker}
    (hu : s.editor.userMarkers.get? marker = some u) :
    (liftMarker marker u.home).run s = (.ok (), s.lifted marker u.home) := by
  cases hhome : u.home with
  | none => rfl
  | some home =>
      obtain ⟨w, d, hs, -⟩ := shows_home h hu hhome
      exact run_changeShown hs _

theorem views_lifted (s : Session) (marker : MarkerId) (home : Option MarkerHome) :
    (s.lifted marker home).editor.views = s.editor.views := by
  cases home <;> rfl

theorem shows_lifted {view : ViewId} {v : View} {d : Document} (hs : s.editor.Shows view v root d)
    (marker : MarkerId) (home : Option MarkerHome) :
    ∃ c, (s.lifted marker home).editor.Shows view v root c := by
  have hdocument : ∃ c, (s.lifted marker home).editor.documents.get? root = some c := by
    rw [Session.documents_lifted, hs.document]
    exact ⟨_, rfl⟩
  obtain ⟨c, hc⟩ := hdocument
  exact ⟨c, views_lifted s marker home ▸ hs.live, hs.root_eq, hc⟩

theorem moves_placeMarker (h : s.editor.WellFormed) (marker : MarkerId) (view : ViewId)
    (pos : Nat) :
    Session.Moves [] s ((placeMarker marker view pos).run s).2 := by
  refine moves_ask_bind fun u hu => ?_
  have hu := get?_of_userMarker hu
  rcases h.registry.dead_or_shows view with hdead | ⟨v, root, d, hs⟩
  · rw [run_ask_bind_error (Editor.rootOf_of_dead hdead)]
    exact .refl s
  · obtain ⟨w, hw, -⟩ := h.registry.shows_root hs.document
    obtain ⟨c, hc⟩ := shows_lifted hw marker u.home
    simp only [run_bind, run_ask, hs.rootOf_eq, hw.document_eq, run_liftMarker h hu,
      run_changeShown hc, setHome, run_change]
    exact .of_quiet (.placeMarker hu hs pos)

theorem moves_detachMarker (h : s.editor.WellFormed) (marker : MarkerId) :
    Session.Moves [] s ((detachMarker marker).run s).2 := by
  refine moves_ask_bind fun u hu => ?_
  have hu := get?_of_userMarker hu
  simp only [run_bind_ok (run_liftMarker h hu), setHome, run_change]
  exact .of_quiet (.detachMarker hu)

theorem moves_setMarkerAdvances (h : s.editor.WellFormed) (marker : MarkerId) (advances : Bool) :
    Session.Moves [] s ((setMarkerAdvances marker advances).run s).2 := by
  refine moves_ask_bind fun u hu => ?_
  have hu := get?_of_userMarker hu
  have hmove := Session.Move.setAdvances hu advances
  cases hhome : u.home with
  | none =>
      rw [hhome] at hmove
      exact .of_quiet hmove
  | some home =>
      obtain ⟨w, d, hs, -⟩ := shows_home h hu hhome
      rw [hhome] at hmove
      simp only [run_bind, run_changeShown hs, run_change]
      exact .of_quiet hmove

/-- What is done with a copy that has been made. -/
def settleCopy (copy : MarkerId) (advances : Bool) (place : Option ViewId) (pos : Option Nat) :
    Act MarkerId := do
  setMarkerAdvances copy advances
  match place, pos with
  | some view, some pos => placeMarker copy view pos
  | _, _ => detachMarker copy
  return copy

theorem copyMarker_eq (source : MarkerId) (advances : Bool) :
    copyMarker source advances =
      ask (·.markerView source) >>= fun place => ask (·.markerPosition source) >>= fun pos =>
        makeMarker >>= fun copy => settleCopy copy advances place pos := rfl

theorem moves_settleCopy (h : s.editor.WellFormed) (copy : MarkerId) (advances : Bool)
    (place : Option ViewId) (pos : Option Nat) :
    Session.Moves [] s ((settleCopy copy advances place pos).run s).2 := by
  have hset := moves_setMarkerAdvances h copy advances
  refine moves_bind hset fun _ t hrun => ?_
  have ht : t.editor.WellFormed := by
    rw [hrun] at hset
    exact hset.wellFormed h
  split
  · exact moves_bind (moves_placeMarker ht _ _ _) fun _ u _ => .refl u
  · exact moves_bind (moves_detachMarker ht _) fun _ u _ => .refl u

theorem moves_copyMarker (h : s.editor.WellFormed) (source : MarkerId) (advances : Bool) :
    Session.Moves [] s ((copyMarker source advances).run s).2 := by
  have hmade : Session.Moves [] s (makeMarker.run s).2 := .of_quiet (.makeMarker s)
  rw [copyMarker_eq]
  refine moves_ask_bind fun place _ => moves_ask_bind fun pos _ =>
    moves_bind hmade fun copy t hrun => ?_
  rw [hrun] at hmade
  exact moves_settleCopy (hmade.wellFormed h) copy advances place pos

/-! ## Overlays -/

theorem moves_makeOverlay (h : s.editor.WellFormed) (view : ViewId) (p q : Nat)
    (front rear : Bool) : Session.Moves [] s ((makeOverlay view p q front rear).run s).2 := by
  rcases h.registry.dead_or_shows view with hdead | ⟨v, root, d, hs⟩
  · rw [makeOverlay, run_ask_bind_error (Editor.rootOf_of_dead hdead)]
    exact .refl s
  · obtain ⟨w, hw, -⟩ := h.registry.shows_root hs.document
    rw [makeOverlay, run_ask_bind hs.rootOf_eq, run_ask_bind hw.document_eq]
    exact .of_quiet (.makeOverlay hs p q front rear)

theorem get?_of_overlayHome {e : Editor} {overlay : OverlayId} {home : OverlayHome}
    (h : e.overlayHome overlay = .ok home) : e.overlayHomes.get? overlay = some home := by
  unfold Editor.overlayHome at h
  split at h
  · cases h
    assumption
  · cases h

theorem shows_of_attached (h : s.editor.WellFormed) {overlay : OverlayId} {o : Overlay}
    (ho : s.editor.attachedOverlay root overlay = .ok o) :
    ∃ v r d, s.editor.Shows root v r d ∧ d.overlays.get? overlay = some o := by
  rcases h.registry.dead_or_shows root with hdead | ⟨v, r, d, hs⟩
  · rw [Editor.attachedOverlay, Editor.document_of_dead hdead] at ho
    cases ho
  · refine ⟨v, r, d, hs, ?_⟩
    rw [Editor.attachedOverlay, hs.document_eq] at ho
    simp only [bind, Except.bind] at ho
    split at ho
    · cases ho
      assumption
    · cases ho

theorem moves_changeProperties (h : s.editor.WellFormed) (overlay : OverlayId)
    (f : PropertyList → PropertyList) :
    Session.Moves [] s ((changeProperties overlay f).run s).2 := by
  refine moves_ask_bind fun o hfound => moves_ask_bind fun home hhome => ?_
  rw [Editor.overlay, hhome] at hfound
  have hget := get?_of_overlayHome hhome
  cases home with
  | detached o' =>
      obtain rfl : o' = o := Except.ok.inj hfound
      exact .of_quiet (.setDetached hget _)
  | attached root =>
      obtain ⟨v, r, d, hs, ho⟩ := shows_of_attached h hfound
      simp only [run_changeShown hs]
      exact .of_quiet (.setAttached hget hs ho _)

theorem moves_overlayPut (h : s.editor.WellFormed) (overlay : OverlayId) (key : String)
    (value : Value) : Session.Moves [] s ((overlayPut overlay key value).run s).2 :=
  moves_ask_bind fun _ _ =>
    moves_bind (moves_changeProperties h overlay (·.put key value)) fun _ t _ => .refl t

theorem moves_overlayRemove (h : s.editor.WellFormed) (overlay : OverlayId) (key : String) :
    Session.Moves [] s ((overlayRemove overlay key).run s).2 :=
  moves_ask_bind fun _ _ =>
    moves_bind (moves_changeProperties h overlay (·.remove key)) fun _ t _ => .refl t

theorem moves_deleteOverlay (h : s.editor.WellFormed) (overlay : OverlayId) :
    Session.Moves [] s ((deleteOverlay overlay).run s).2 := by
  refine moves_ask_bind fun home hhome => ?_
  cases home with
  | detached o => exact .refl s
  | attached root =>
      refine moves_ask_bind fun o ho => ?_
      obtain ⟨v, r, d, hs, ho⟩ := shows_of_attached h ho
      simp only [run_bind_ok (run_changeShown hs _), setOverlayHome, run_change]
      exact .of_quiet (.deleteOverlay (get?_of_overlayHome hhome) hs ho)

theorem moves_deleteAllOverlays (h : s.editor.WellFormed) (view : ViewId) :
    Session.Moves [] s ((deleteAllOverlays view).run s).2 := by
  rcases h.registry.dead_or_shows view with hdead | ⟨v, root, d, hs⟩
  · rw [deleteAllOverlays, run_ask_bind_error (Editor.document_of_dead hdead)]
    exact .refl s
  · rw [deleteAllOverlays, run_ask_bind hs.document_eq, run_bind_ok (run_changeShown hs _),
      run_change]
    exact .of_quiet (.deleteAllOverlays hs)

theorem moves_moveOverlay (h : s.editor.WellFormed) (overlay : OverlayId) (view : ViewId)
    (p q : Nat) : Session.Moves [] s ((moveOverlay overlay view p q).run s).2 := by
  rcases h.registry.dead_or_shows view with hdead | ⟨v, root, d, hs⟩
  · rw [moveOverlay, run_ask_bind_error (Editor.rootOf_of_dead hdead)]
    exact .refl s
  · obtain ⟨w, hw, -⟩ := h.registry.shows_root hs.document
    rw [moveOverlay, run_ask_bind hs.rootOf_eq]
    refine moves_ask_bind fun home hhome => ?_
    have hget := get?_of_overlayHome hhome
    cases home with
    | detached o =>
        simp only [liftOverlay, run_bind, run_pure, run_ask, hw.document_eq, run_changeDocument,
          setOverlayHome, run_change]
        exact .of_quiet (.moveDetached hget hs p q)
    | attached old =>
        simp only [liftOverlay]
        rw [run_bind, run_bind, run_ask]
        cases ho : s.editor.attachedOverlay old overlay with
        | error e => exact .refl s
        | ok o =>
            obtain ⟨x, r, c, hold, ho⟩ := shows_of_attached h ho
            have hlifted := Session.shows_onDocument hw r fun d =>
              { d with overlays := d.overlays.erase overlay }
            simp only [run_bind, run_changeShown hold, run_pure, run_ask, hlifted.document_eq,
              run_changeDocument, setOverlayHome, run_change]
            have hlength : (if root = r then { d with overlays := d.overlays.erase overlay }
                else d).length = d.length := by split <;> rfl
            rw [hlength]
            exact .of_quiet (.moveAttached hget hold ho hs p q)

end Act

end Editing
