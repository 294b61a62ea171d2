import Editing.Proofs.Session.Undone

/-!
# Failed operations

An operation looks up what it needs and asks for the lock that it needs before it changes anything,
and what comes after that does not fail. So a failed operation leaves all as it was; at most the
protocol has been asked for a lock, and has refused it. The exceptions are an undo, which keeps what
it has taken back, and the erasing of a text, which makes the whole text accessible first.
-/

namespace Editing

/-- What is left when an act fails before it changes anything. -/
inductive Session.Spared (s : Session) : Error → Session → Prop
  | same (e : Error) : s.Spared e s
  | refused {root : ViewId} {path : Path} {reason : Failure}
      (h : s.refusal? root path = some reason) :
      s.Spared (.lockRefused reason) (s.called (.lockRefused root path))

namespace Act

variable {α β : Type} {s : Session} {view root : ViewId} {v : View} {d : Document}

/-- The act fails in the session only before it changes anything. -/
def Atomic (act : Act α) (s : Session) : Prop :=
  ∀ e t, act.run s = (.error e, t) → s.Spared e t

theorem Succeeds.atomic {act : Act α} (h : Succeeds act s) : Atomic act s := by
  obtain ⟨a, t, hrun⟩ := h
  intro e u he
  rw [hrun] at he
  cases he

/-! ## Acts that find all they need -/

namespace Succeeds

/-- A marker that is known can be placed in a view that is live. -/
theorem placeMarker (h : s.editor.WellFormed) {marker : MarkerId} {u : UserMarker}
    (hu : s.editor.userMarker marker = .ok u) (hs : s.editor.Shows view v root d) (pos : Nat) :
    Succeeds (placeMarker marker view pos) s := by
  obtain ⟨w, hw, -⟩ := h.registry.shows_root hs.document
  have hlift := run_liftMarker h (get?_of_userMarker hu)
  obtain ⟨c, hc⟩ := shows_lifted hw marker u.home
  refine .ask_bind hu <| .ask_bind hs.rootOf_eq <| .ask_bind hw.document_eq <|
    .bind ⟨_, _, hlift⟩ fun _ t hrun => ?_
  rw [hlift] at hrun
  cases hrun
  exact .bind (.changeShown hc _) fun _ t _ => .change _ t

theorem detachMarker (h : s.editor.WellFormed) {marker : MarkerId} {u : UserMarker}
    (hu : s.editor.userMarker marker = .ok u) : Succeeds (detachMarker marker) s :=
  .ask_bind hu <| .bind ⟨_, _, run_liftMarker h (get?_of_userMarker hu)⟩ fun _ t _ => .change _ t

theorem callHandlers (calls : List HandlerCall) (s : Session) :
    Succeeds (callHandlers calls) s := ⟨_, _, (moves_callHandlers calls s).1⟩

theorem truncateLog (hs : s.editor.Shows view v root d) (hd : d.log.suspended = false) :
    Succeeds (truncateLog view) s := by
  obtain ⟨truncation, hok⟩ := UndoLog.truncateWith_ok hd s.editor.limits.soft
    s.editor.limits.strong s.editor.limits.outer (s.editor.limits.handler.map Handler.run)
  refine .ask_bind hs.document_eq <| .get_bind <| .bind (.changeShown hs _) fun _ t _ =>
    .bind (.callHandlers _ t) fun _ u _ => ⟨truncation, u, ?_⟩
  rw [run_give, UndoLog.truncate, hok]

theorem truncateUndo (h : s.editor.WellFormed) (hs : s.editor.Shows view v root d) :
    Succeeds (truncateUndo view) s := by
  obtain ⟨w, hw, -⟩ := h.registry.shows_root hs.document
  have hcurrent : (s.edit fun e => { e with current := some root }).editor.Shows root w root d :=
    ⟨hw.live, hw.root_eq, hw.document⟩
  obtain ⟨truncation, t, hrun⟩ := truncateLog hcurrent (h.logging.log root d hs.document).2
  refine .ask_bind hs.rootOf_eq ⟨truncation, t.edit (·.restoreCurrent s.editor.current), ?_⟩
  rw [run_withCurrent hw.live, hrun]

theorem truncateAll {roots : List ViewId} (h : s.editor.WellFormed)
    (hroots : ∀ r ∈ roots, ∃ v, s.editor.views.get? r = some v) :
    Succeeds (truncateAll roots) s := by
  induction roots generalizing s with
  | nil => exact .pure _ s
  | cons root roots ih =>
      obtain ⟨v, hv⟩ := hroots root List.mem_cons_self
      obtain ⟨r, d, hs⟩ := h.registry.shows_of_live hv
      obtain ⟨marks, -, -, hmoves, hviews⟩ := moves_truncateUndo h root
      refine .bind (.truncateUndo h hs) fun _ t hrun => ?_
      rw [hrun] at hmoves hviews
      refine .bind (ih (hmoves.wellFormed h) fun r hr => ?_) fun _ u _ => .pure _ u
      rw [show t.editor.views = s.editor.views from hviews]
      exact hroots r (List.mem_cons_of_mem root hr)

end Succeeds

/-- The view in which a marker was set stays live as long as the marker points there. -/
theorem live_of_markerView (h : s.editor.WellFormed) {marker : MarkerId}
    (hview : s.editor.markerView marker = .ok (some view)) :
    ∃ v, s.editor.views.get? view = some v := by
  rw [Editor.markerView] at hview
  cases hu : s.editor.userMarker marker with
  | error e =>
      rw [hu] at hview
      cases hview
  | ok u =>
      rw [hu] at hview
      obtain ⟨home, hhome, rfl⟩ := Option.map_eq_some_iff.mp (Except.ok.inj hview)
      obtain ⟨v, d, hs, -⟩ := h.marking.homed marker u home (get?_of_userMarker hu) hhome
      exact ⟨v, hs.live⟩

/-- A marker that lies nowhere has only its insertion type noted. -/
theorem run_setMarkerAdvances_of_homeless {marker : MarkerId} {b : Bool}
    (hu : s.editor.userMarkers.get? marker = some ⟨none, b⟩) (advances : Bool) :
    ∃ t, (setMarkerAdvances marker advances).run s = (.ok (), t) ∧
      t.editor.views = s.editor.views ∧ t.editor.userMarker marker = .ok ⟨none, advances⟩ := by
  have hmarker : s.editor.userMarker marker = .ok ⟨none, b⟩ := by rw [Editor.userMarker, hu]
  refine ⟨s.edit fun e => { e with
    userMarkers := e.userMarkers.modify marker fun m => { m with advances := advances } },
    ?_, rfl, ?_⟩
  · rw [setMarkerAdvances, run_ask_bind hmarker]
    rfl
  · rw [Editor.userMarker, Session.editor_edit, Table.get?_modify, if_pos rfl, hu]
    rfl

/-- A marker that can be looked up can be copied. -/
theorem Succeeds.copyMarker (h : s.editor.WellFormed) {source : MarkerId} {place : Option ViewId}
    {pos : Option Nat} (hplace : s.editor.markerView source = .ok place)
    (hpos : s.editor.markerPosition source = .ok pos) (advances : Bool) :
    Succeeds (copyMarker source advances) s := by
  -- The copy is made and marked while it lies nowhere, so nothing but the table of markers changes
  -- before it is placed.
  have hmoves : Session.Moves [] s (makeMarker.run s).2 := .of_quiet (.makeMarker s)
  have hnew : (makeMarker.run s).2.editor.userMarkers.get? s.editor.nextMarker =
      some ⟨none, false⟩ := Table.get?_insert_self _ _ _
  obtain ⟨t, hset, hviews, hmarker⟩ := run_setMarkerAdvances_of_homeless hnew advances
  have hwell : t.editor.WellFormed := by
    have hmoves' := hmoves.trans (moves_setMarkerAdvances (hmoves.wellFormed h)
      s.editor.nextMarker advances)
    rw [hset] at hmoves'
    exact hmoves'.wellFormed h
  refine .ask_bind hplace <| .ask_bind hpos <|
    .bind ⟨_, _, run_makeMarker s⟩ fun marker made hmade => ?_
  cases hmade
  refine .bind ⟨_, _, hset⟩ fun _ t' ht' => ?_
  obtain ⟨-, rfl⟩ := Prod.mk.inj (hset.symm.trans ht')
  have hdetached := Succeeds.detachMarker hwell hmarker
  cases place with
  | none => exact .bind hdetached fun _ u _ => .pure _ u
  | some view =>
      cases pos with
      | none => exact .bind hdetached fun _ u _ => .pure _ u
      | some pos =>
          obtain ⟨v, hv⟩ := live_of_markerView h hplace
          have hlive : t.editor.views.get? view = some v := by
            rw [hviews]
            exact hv
          obtain ⟨root, d, hs⟩ := hwell.registry.shows_of_live hlive
          exact .bind (.placeMarker hwell hmarker hs pos) fun _ u _ => .pure _ u

/-- Every view that was shown is still shown once an overlay has been taken from where it was. -/
theorem shows_liftOverlay (h : s.editor.WellFormed) {overlay : OverlayId} {home : OverlayHome}
    {o : Overlay} {t : Session} (hrun : (liftOverlay overlay home).run s = (.ok o, t))
    (hs : s.editor.Shows view v root d) : ∃ c, t.editor.Shows view v root c := by
  cases home with
  | detached _ =>
      cases hrun
      exact ⟨d, hs⟩
  | attached r =>
      rw [liftOverlay, run_bind, run_ask] at hrun
      cases ho : s.editor.attachedOverlay r overlay with
      | error e =>
          rw [ho] at hrun
          cases hrun
      | ok _ =>
          obtain ⟨w, r', c, hw, -⟩ := shows_of_attached h ho
          simp only [ho, run_bind_ok (run_changeShown hw _), run_pure] at hrun
          cases hrun
          exact ⟨_, Session.shows_onDocument hs r' _⟩

/-! ## Parts of acts -/

namespace Atomic

theorem of_error {act : Act α} {e : Error} (h : act.run s = (.error e, s)) : Atomic act s := by
  intro f t hrun
  rw [h] at hrun
  cases hrun
  exact .same e

theorem throw (e : Error) (s : Session) : Atomic (throw e : Act α) s := by
  intro f t h
  cases h
  exact .same e

theorem give (r : Except Error α) (s : Session) : Atomic (give r) s := by
  intro e t h
  rw [run_give] at h
  cases h
  exact .same e

theorem ask (question : Editor → Except Error α) (s : Session) : Atomic (ask question) s := by
  intro e t h
  rw [run_ask] at h
  obtain ⟨-, rfl⟩ := Prod.mk.inj h
  exact .same e

/-- What follows the first part does not fail any more. -/
theorem bind {act : Act α} {next : α → Act β} (h : Atomic act s)
    (h' : ∀ a t, act.run s = (.ok a, t) → Succeeds (next a) t) : Atomic (act >>= next) s := by
  intro e u he
  rcases hrun : act.run s with ⟨f | a, t⟩
  · rw [run_bind_error hrun] at he
    cases he
    exact h _ _ hrun
  · obtain ⟨b, w, hnext⟩ := h' a t hrun
    rw [run_bind_ok hrun, hnext] at he
    cases he

/-- A question changes nothing, so what follows it may fail as well. -/
theorem ask_bind {question : Editor → Except Error α} {next : α → Act β}
    (h : ∀ a, question s.editor = .ok a → Atomic (next a) s) :
    Atomic (Act.ask question >>= next) s := by
  intro e t he
  cases hq : question s.editor with
  | error f =>
      rw [run_ask_bind_error hq] at he
      cases he
      exact .same _
  | ok a =>
      rw [run_ask_bind hq] at he
      exact h a hq e t he

theorem get_bind {next : Session → Act β} (h : Atomic (next s) s) : Atomic (get >>= next) s := by
  intro e t he
  rw [run_bind_ok (run_get s)] at he
  exact h e t he

theorem guarded {c : Prop} [Decidable c] {e : Error} {act : Act α} (h : Atomic act s) :
    Atomic (if c then (MonadExcept.throw e : Act PUnit) >>= fun _ => act else act) s := by
  split
  · intro f t he
    cases he
    exact .same _
  · exact h

theorem quietly {act : Act α} (h : Atomic act s) : Atomic (Op.quietly act) s :=
  h.bind fun _ t _ => .pure _ t

theorem map (f : α → β) {act : Act α} (h : Atomic act s) : Atomic (f <$> act) s := by
  rw [map_eq_pure_bind]
  exact h.bind fun _ t _ => .pure _ t

theorem lock (root : ViewId) (path : Path) (s : Session) : Atomic (lock root path) s := by
  intro e t he
  rw [run_lock] at he
  cases hr : s.refusal? root path with
  | none =>
      rw [hr] at he
      cases he
  | some reason =>
      rw [hr] at he
      cases he
      exact .refused hr

theorem changeShown (view : ViewId) (f : Document → Document) (s : Session) :
    Atomic (changeShown view f) s :=
  .ask_bind fun _ _ => .ask_bind fun _ _ => (Succeeds.change _ s).atomic

/-! ## Views -/

theorem createIndirect (base : ViewId) (name : String) (s : Session) :
    Atomic (createIndirect base name) s := by
  refine .get_bind ?_
  split
  · exact .throw _ s
  · split
    · exact .throw _ s
    · exact .ask_bind fun _ _ => .get_bind <|
        Succeeds.atomic <| .bind (.change _ s) fun _ t _ => .pure _ t

theorem kill (view : ViewId) (s : Session) : Atomic (kill view) s := by
  refine .ask_bind fun v _ => .ask_bind fun d _ => Succeeds.atomic ?_
  split
  · exact .change _ s
  · exact .bind (.change _ s) fun _ t _ => .bind (.unlockIf _ _ _ t) fun _ u _ => .change _ u

theorem setCurrent (view : ViewId) (s : Session) : Atomic (setCurrent view) s :=
  .ask_bind fun _ _ => (Succeeds.change _ s).atomic

theorem setReadOnly (view : ViewId) (readOnly : Bool) (s : Session) :
    Atomic (setReadOnly view readOnly) s :=
  .ask_bind fun _ _ => (Succeeds.change _ s).atomic

theorem narrow (view : ViewId) (p q : Nat) (s : Session) : Atomic (narrow view p q) s :=
  .ask_bind fun _ _ => .ask_bind fun _ _ => .guarded (.changeShown _ _ s)

theorem widen (view : ViewId) (s : Session) : Atomic (widen view) s :=
  .ask_bind fun _ _ => .changeShown _ _ s

theorem goto (view : ViewId) (pos : Nat) (s : Session) : Atomic (goto view pos) s :=
  .ask_bind fun _ _ => .ask_bind fun _ _ => .bind (.changeShown _ _ s) fun _ t _ => .pure _ t

/-! ## Texts and files -/

theorem lockForChange (root : ViewId) (d : Document) (s : Session) :
    Atomic (lockForChange root d) s := by
  unfold Act.lockForChange
  split
  · exact (Succeeds.pure _ s).atomic
  · split
    · exact (Succeeds.pure _ s).atomic
    · exact .bind (.lock _ _ s) fun _ t _ => .change _ t

theorem makeChange (view : ViewId) (c : Change) (s : Session) : Atomic (makeChange view c) s := by
  refine .ask_bind fun d _ => .ask_bind fun root _ => .ask_bind fun isProtected _ => ?_
  split
  · exact .throw _ s
  · split
    · exact (Succeeds.pure _ s).atomic
    · split
      · exact .throw _ s
      · exact .bind (.lockForChange root d s) fun _ t _ =>
          .bind ⟨_, _, run_announceChange root d t⟩ fun _ u _ => .change _ u

theorem insertAt (view : ViewId) (pos : Nat) (text : Text) (s : Session) :
    Atomic (insertAt view pos text) s :=
  .ask_bind fun _ _ => .makeChange _ _ s

theorem insert (h : s.editor.WellFormed) (view : ViewId) (text : Text) :
    Atomic (insert view text) s := by
  refine .ask_bind fun v _ => .ask_bind fun point hpoint =>
    .bind (.insertAt _ _ _ s) fun _ t hrun => ?_
  -- What is left to do is to move point, in a view that still shows the document.
  rcases h.registry.dead_or_shows view with hdead | ⟨v, root, d, hs⟩
  · rw [Act.insertAt, run_ask_bind_error (Editor.accessibleRange_of_dead hdead point point)] at hrun
    cases hrun
  · rw [run_insertAt hs] at hrun
    split at hrun
    · cases hrun
    · rcases makeChange_cases hs (.insert point text) with
        ⟨e, he⟩ | ⟨path, reason, he⟩ | ⟨-, -, he⟩
      · rw [he] at hrun
        cases hrun
      · rw [he] at hrun
        cases hrun
      · rw [he] at hrun
        cases hrun
        exact .bind (.changeShown (Session.shows_revised hs) _) fun _ u _ => .pure _ u

theorem insertRaw (view : ViewId) (pos : Nat) (text : Text) (s : Session) :
    Atomic (insertRaw view pos text) s :=
  .bind (.makeChange _ _ s) fun _ t _ => .pure _ t

theorem deleteRaw (view : ViewId) (start stop : Nat) (s : Session) :
    Atomic (deleteRaw view start stop) s :=
  .ask_bind fun _ _ => .bind (.makeChange _ _ s) fun _ t _ => .pure _ t

theorem deleteRegion (view : ViewId) (p q : Nat) (s : Session) :
    Atomic (deleteRegion view p q) s :=
  .ask_bind fun _ _ => .deleteRaw _ _ _ s

theorem noteProperty (view : ViewId) (pos length : Nat) (key : String) (value : Value)
    (s : Session) : Atomic (noteProperty view pos length key value) s := by
  unfold Act.noteProperty
  split
  · exact .throw _ s
  · exact .makeChange _ _ s

theorem setUnmodified (view : ViewId) (s : Session) : Atomic (setUnmodified view) s :=
  .ask_bind fun _ _ => .ask_bind fun _ _ =>
    Succeeds.atomic <| .bind (.change _ s) fun _ t _ => .unlockIf _ _ _ t

theorem setVisitedFile (view : ViewId) (file : Option Path) (s : Session) :
    Atomic (setVisitedFile view file) s := by
  refine .ask_bind fun v _ => .guarded (.ask_bind fun d _ => ?_)
  have hset : ∀ t, Succeeds (do
      changeDocument view fun d => { d with file := file, locked := d.isModified && file.isSome }
      Act.unlockIf d.locked view d.file) t := fun t =>
    .bind (.change _ t) fun _ u _ => .unlockIf _ _ _ u
  split
  · exact (Succeeds.pure _ s).atomic
  · dsimp only
    split
    · exact .bind (.lock _ _ s) fun _ t _ => hset t
    · exact (hset s).atomic

theorem fileLockState (view : ViewId) (s : Session) : Atomic (fileLockState view) s := by
  refine .ask_bind fun file _ => .get_bind ?_
  split
  · exact (Succeeds.pure _ s).atomic
  · exact (Succeeds.pure _ s).atomic

/-! ## Markers -/

theorem liftMarker (marker : MarkerId) (home : Option MarkerHome) (s : Session) :
    Atomic (liftMarker marker home) s := by
  cases home with
  | none => exact (Succeeds.pure _ s).atomic
  | some home => exact .changeShown _ _ s

theorem placeMarker (h : s.editor.WellFormed) (marker : MarkerId) (view : ViewId) (pos : Nat) :
    Atomic (placeMarker marker view pos) s := by
  cases hu : s.editor.userMarker marker with
  | error e => exact .of_error (run_ask_bind_error hu _)
  | ok u =>
      rcases h.registry.dead_or_shows view with hdead | ⟨v, root, d, hs⟩
      · refine .of_error (e := .noLiveView view) ?_
        rw [Act.placeMarker, run_ask_bind hu, run_ask_bind_error (Editor.rootOf_of_dead hdead)]
      · exact (Succeeds.placeMarker h hu hs pos).atomic

theorem detachMarker (marker : MarkerId) (s : Session) : Atomic (detachMarker marker) s :=
  .ask_bind fun _ _ => .bind (.liftMarker _ _ s) fun _ t _ => .change _ t

theorem setMarkerAdvances (marker : MarkerId) (advances : Bool) (s : Session) :
    Atomic (setMarkerAdvances marker advances) s := by
  refine .ask_bind fun u _ => ?_
  split
  · exact (Succeeds.change _ s).atomic
  · exact .bind (.changeShown _ _ s) fun _ t _ => .change _ t

theorem copyMarker (h : s.editor.WellFormed) (source : MarkerId) (advances : Bool) :
    Atomic (copyMarker source advances) s := by
  cases hplace : s.editor.markerView source with
  | error e => exact .of_error (run_ask_bind_error hplace _)
  | ok place =>
      cases hpos : s.editor.markerPosition source with
      | error e =>
          refine .of_error (e := e) ?_
          rw [Act.copyMarker, run_ask_bind hplace, run_ask_bind_error hpos]
      | ok pos => exact (Succeeds.copyMarker h hplace hpos advances).atomic

/-! ## Overlays -/

theorem makeOverlay (view : ViewId) (p q : Nat) (front rear : Bool) (s : Session) :
    Atomic (makeOverlay view p q front rear) s :=
  .ask_bind fun _ _ => .ask_bind fun _ _ => .get_bind <| Succeeds.atomic <|
    .bind (.change _ s) fun _ t _ => .bind (.change _ t) fun _ u _ => .pure _ u

theorem changeProperties (overlay : OverlayId) (f : PropertyList → PropertyList) (s : Session) :
    Atomic (changeProperties overlay f) s := by
  refine .ask_bind fun o _ => .ask_bind fun home _ => ?_
  split
  · exact (Succeeds.change _ s).atomic
  · exact .changeShown _ _ s

theorem overlayPut (overlay : OverlayId) (key : String) (value : Value) (s : Session) :
    Atomic (overlayPut overlay key value) s :=
  .ask_bind fun _ _ => .bind (.changeProperties _ _ s) fun _ t _ => .pure _ t

theorem overlayRemove (overlay : OverlayId) (key : String) (s : Session) :
    Atomic (overlayRemove overlay key) s :=
  .ask_bind fun _ _ => .bind (.changeProperties _ _ s) fun _ t _ => .pure _ t

theorem deleteOverlay (overlay : OverlayId) (s : Session) : Atomic (deleteOverlay overlay) s := by
  refine .ask_bind fun home _ => ?_
  split
  · exact (Succeeds.pure _ s).atomic
  · exact .ask_bind fun _ _ => .bind (.changeShown _ _ s) fun _ t _ => .change _ t

theorem deleteAllOverlays (view : ViewId) (s : Session) : Atomic (deleteAllOverlays view) s :=
  .ask_bind fun _ _ => .bind (.changeShown _ _ s) fun _ t _ => .change _ t

theorem liftOverlay (overlay : OverlayId) (home : OverlayHome) (s : Session) :
    Atomic (liftOverlay overlay home) s := by
  cases home with
  | detached o => exact (Succeeds.pure _ s).atomic
  | attached root => exact .ask_bind fun _ _ => .bind (.changeShown _ _ s) fun _ t _ => .pure _ t

theorem moveOverlay (h : s.editor.WellFormed) (overlay : OverlayId) (view : ViewId) (p q : Nat) :
    Atomic (moveOverlay overlay view p q) s := by
  refine .ask_bind fun target htarget => .ask_bind fun home _ =>
    .bind (.liftOverlay _ _ s) fun o t hrun => ?_
  obtain ⟨v, d, hs⟩ := h.registry.shows_of_rootOf htarget
  obtain ⟨w, hw, -⟩ := h.registry.shows_root hs.document
  obtain ⟨c, hc⟩ := shows_liftOverlay h hrun hw
  exact .ask_bind hc.document_eq <| .bind (.change _ t) fun _ u _ => .change _ u

/-! ## Undo logs -/

theorem truncateUndo (h : s.editor.WellFormed) (view : ViewId) :
    Atomic (truncateUndo view) s := by
  rcases h.registry.dead_or_shows view with hdead | ⟨v, root, d, hs⟩
  · exact .of_error (run_ask_bind_error (Editor.rootOf_of_dead hdead) _)
  · exact (Succeeds.truncateUndo h hs).atomic

theorem reclaim (h : s.editor.WellFormed) : Atomic reclaim s := by
  refine .get_bind (Succeeds.truncateAll h fun r hr => ?_).atomic
  obtain ⟨v, hv, -⟩ := mem_rootList.mp hr
  exact ⟨v, hv⟩

end Atomic

end Act

/-! ## Operations -/

/-- An operation fails before it changes anything, unless it undoes or erases. -/
theorem Op.atomic {s : Session} (h : s.editor.WellFormed) {o : Op} (hundo : ∀ view, o ≠ .undo view)
    (herase : ∀ view, o ≠ .erase view) : Act.Atomic o.act s := by
  cases o with
  | createRoot name => exact .map _ (Act.Succeeds.atomic ⟨_, _, rfl⟩)
  | createIndirect base name => exact .map _ (.createIndirect base name s)
  | kill view => exact .quietly (.kill view s)
  | nameOf view => exact .ask_bind fun _ _ => (Act.Succeeds.pure _ s).atomic
  | setCurrent view => exact .quietly (.setCurrent view s)
  | narrow view p q => exact .quietly (.narrow view p q s)
  | widen view => exact .quietly (.widen view s)
  | goto view pos => exact .map _ (.goto view pos s)
  | insert view text => exact .map _ (.insert h view text)
  | deleteRegion view p q => exact .map _ (.deleteRegion view p q s)
  | erase view => exact absurd rfl (herase view)
  | insertRaw view pos text => exact .map _ (.insertRaw view pos text s)
  | deleteRaw view start stop => exact .map _ (.deleteRaw view start stop s)
  | notePropertyRaw view start stop key value => exact .quietly (.makeChange view _ s)
  | setReadOnly view readOnly => exact .quietly (.setReadOnly view readOnly s)
  | setInhibitReadOnly inhibit => exact .quietly (Act.Succeeds.change _ s).atomic
  | refuseReadOnly view => exact .quietly (.ask _ s)
  | setUnmodified view => exact .quietly (.setUnmodified view s)
  | setVisitedFile view file => exact .quietly (.setVisitedFile view file s)
  | fileLockState view => exact .map _ (.fileLockState view s)
  | setLockProtocol protocol => exact .quietly (Act.Succeeds.atomic ⟨_, _, rfl⟩)
  | makeMarker => exact .map _ (Act.Succeeds.atomic ⟨_, _, rfl⟩)
  | placeMarker marker view pos => exact .quietly (.placeMarker h marker view pos)
  | detachMarker marker => exact .quietly (.detachMarker marker s)
  | copyMarker marker advances => exact .map _ (.copyMarker h marker advances)
  | setMarkerAdvances marker advances => exact .quietly (.setMarkerAdvances marker advances s)
  | makeOverlay view p q front rear => exact .map _ (.makeOverlay view p q front rear s)
  | overlayPut overlay key value => exact .map _ (.overlayPut overlay key value s)
  | overlayRemove overlay key => exact .map _ (.overlayRemove overlay key s)
  | deleteOverlay overlay => exact .quietly (.deleteOverlay overlay s)
  | deleteAllOverlays view => exact .quietly (.deleteAllOverlays view s)
  | moveOverlay overlay view p q => exact .quietly (.moveOverlay h overlay view p q)
  | closeGroup view | disableUndo view | enableUndo view | clearUndo view =>
      exact .quietly (.changeShown view _ s)
  | noteProperty view pos length key value =>
      exact .quietly (.noteProperty view pos length key value s)
  | undo view => exact absurd rfl (hundo view)
  | truncateUndo view => exact .map _ (.truncateUndo h view)
  | reclaim => exact .map _ (.reclaim h)
  | setLimits soft strong outer handler =>
      exact .bind (.give _ s) fun _ t _ => .bind (.change _ t) fun _ u _ => .pure _ u
  | setHandler handler => exact .quietly (Act.Succeeds.change _ s).atomic
  | isLive _ | viewList | rootList | viewNamed _ | current | viewVisiting _ | limits =>
      exact Act.Succeeds.atomic ⟨_, _, rfl⟩
  | _ => exact .map _ (.ask _ s)

namespace Session

/-- When an operation other than an undo or an erasing fails, whatever the protocol decides on its
request for a lock, the whole editor is as it was, and no call has been made but that request, which
was then refused. -/
theorem failed_operation_changes_nothing {s : Session} (h : s.Reachable) {o : Op}
    (hundo : ∀ view, o ≠ .undo view) (herase : ∀ view, o ≠ .erase view) {e : Error}
    (he : (o.act.run s).1 = .error e) :
    (s.after o).editor = s.editor ∧ (s.after o).locks = s.locks ∧
      ((s.after o).trace = s.trace ∨
        ∃ root path reason, e = .lockRefused reason ∧ s.refusal? root path = some reason ∧
          (s.after o).trace = .lockRefused root path :: s.trace) := by
  have hspared : s.Spared e (s.after o) :=
    Op.atomic h.atRest.wellFormed hundo herase e _ (Prod.ext he rfl)
  generalize s.after o = t at hspared ⊢
  cases hspared with
  | same => exact ⟨rfl, rfl, Or.inl rfl⟩
  | refused hr => exact ⟨rfl, rfl, Or.inr ⟨_, _, _, rfl, hr, rfl⟩⟩

/-- Refuses every lock. -/
def sternProtocol : LockProtocol where
  refusal _ _ _ := some (.because "in use")
  state _ _ := .unlocked

/-- A root visits a file, and so its first change needs a lock. -/
def fileVisited : List Op :=
  [.createRoot "v", .setVisitedFile 0 (some ⟨"/v"⟩), .makeOverlay 0 0 0 false false]

theorem fileVisited_insert_changes_nothing :
    let s := (fresh .default (some sternProtocol)).afterAll fileVisited
    s.Reachable ∧
      ((Op.insert 0 ['x']).act.run s).1 = .error (.lockRefused (.because "in use")) ∧
      (s.after (.insert 0 ['x'])).editor = s.editor ∧
      (s.after (.insert 0 ['x'])).trace = [.lockRefused 0 ⟨"/v"⟩] := by
  intro s
  have hreachable : s.Reachable := (Reachable.fresh .default _).afterAll fileVisited
  have hrefused : ((Op.insert 0 ['x']).act.run s).1 =
      .error (.lockRefused (.because "in use")) := rfl
  have hundo : ∀ view, Op.insert 0 ['x'] ≠ .undo view := nofun
  have herase : ∀ view, Op.insert 0 ['x'] ≠ .erase view := nofun
  obtain ⟨heditor, -, -⟩ := failed_operation_changes_nothing hreachable hundo herase hrefused
  exact ⟨hreachable, hrefused, heditor, rfl⟩

end Session

end Editing
