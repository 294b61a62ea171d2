import Editing.Proofs.Session.Isolating

/-!
# Acts that avoid a root

An act through a view leaves every root alone but the one of the view, and an act on a marker or an
overlay every root but those that it is taken from and put into. What is made gets a number that
nothing in a root has.
-/

namespace Editing.Act

open Editor

variable {α β : Type} {s t : Session} {root r view : ViewId}

/-- Carried out in the session, the act leaves the root alone, whether it fails or not. -/
def Avoids (root : ViewId) (act : Act α) (s : Session) : Prop :=
  s.editor.Untouched root (act.run s).2.editor

namespace Avoids

/-! ## Parts of acts -/

theorem of_editor {act : Act α} (h : (act.run s).2.editor = s.editor) : Avoids root act s := by
  rw [Avoids, h]
  exact .refl root s.editor

theorem pure (a : α) : Avoids root (pure a : Act α) s := .of_editor rfl

theorem throw (e : Error) : Avoids root (throw e : Act α) s := .of_editor rfl

theorem give (x : Except Error α) : Avoids root (give x) s := .of_editor (by rw [run_give])

theorem ask (question : Editor → Except Error α) : Avoids root (ask question) s :=
  .of_editor (by rw [run_ask])

theorem call (c : Call) : Avoids root (call c) s := .of_editor rfl

theorem change {f : Editor → Editor} (h : s.editor.Untouched root (f s.editor)) :
    Avoids root (change f) s := h

theorem map (f : α → β) {act : Act α} (h : Avoids root act s) : Avoids root (f <$> act) s := by
  rw [Avoids, run_map]
  exact h

theorem quietly {act : Act α} (h : Avoids root act s) : Avoids root (Op.quietly act) s := by
  rw [Avoids, run_quietly]
  exact h

theorem attempt {act : Act α} (h : Avoids root act s) : Avoids root (attempt act) s := h

/-- The parts of an act avoid the root one after the other. -/
theorem bind {act : Act α} {next : α → Act β} (h : Avoids root act s)
    (h' : ∀ a t, act.run s = (.ok a, t) → s.editor.Untouched root t.editor →
      Avoids root (next a) t) : Avoids root (act >>= next) s := by
  rw [Avoids] at h
  rcases hrun : act.run s with ⟨e | a, t⟩
  · rw [hrun] at h
    rw [Avoids, run_bind_error hrun]
    exact h
  · rw [hrun] at h
    rw [Avoids, run_bind_ok hrun]
    exact h.trans (h' a t hrun h)

theorem ask_bind {question : Editor → Except Error α} {next : α → Act β}
    (h : ∀ a, question s.editor = .ok a → Avoids root (next a) s) :
    Avoids root (Act.ask question >>= next) s := by
  cases ha : question s.editor with
  | error e =>
      refine .of_editor ?_
      rw [run_ask_bind_error ha]
  | ok a =>
      rw [Avoids, run_ask_bind ha]
      exact h a ha

theorem get_bind {next : Session → Act β} (h : Avoids root (next s) s) :
    Avoids root (get >>= next) s := by
  rw [Avoids, run_bind_ok (run_get s)]
  exact h

theorem guarded {c : Prop} [Decidable c] {e : Error} {act : Act α} (h : Avoids root act s) :
    Avoids root (if c then (MonadExcept.throw e : Act PUnit) >>= fun _ => act else act) s := by
  split
  · exact .of_editor rfl
  · exact h

theorem lock (r : ViewId) (path : Path) : Avoids root (lock r path) s := by
  refine .of_editor ?_
  rw [run_lock]
  split
  · exact Session.editor_granted s r path
  · rfl

theorem unlockIf (held : Bool) (r : ViewId) (file : Option Path) :
    Avoids root (unlockIf held r file) s := by
  refine .of_editor ?_
  rw [run_unlockIf, Session.editor_unlocked]

/-- What is done to an editor besides its documents, views, markers and overlays. -/
theorem besides {f : Editor → Editor}
    (hf : ∀ e, (f e).documents = e.documents ∧ (f e).views = e.views ∧
      (f e).userMarkers = e.userMarkers ∧ (f e).overlayHomes = e.overlayHomes) :
    Avoids root (Act.change f) s :=
  .change (.of_parts (by rw [(hf _).1]) (hf _).2.1 (hf _).2.2.1 (hf _).2.2.2)

/-! ## Views and texts -/

theorem changeDocument (h : r ≠ root) (f : Document → Document) :
    Avoids root (changeDocument r f) s := .change (.amend h _ f)

theorem changeShown (h : s.editor.rootOf view ≠ .ok root) (f : Document → Document) :
    Avoids root (changeShown view f) s :=
  .ask_bind fun _ _ => .ask_bind fun _ hr => .changeDocument (ne_of_rootOf h hr) f

theorem setReadOnly (h : s.editor.rootOf view ≠ .ok root) (readOnly : Bool) :
    Avoids root (setReadOnly view readOnly) s := by
  refine .ask_bind fun v _ => .change ?_
  refine ⟨rfl, fun w v hw => ?_, fun _ _ _ _ _ => Iff.rfl, fun _ => Iff.rfl⟩
  rw [Table.get?_modify]
  split
  · rename_i heq
    subst heq
    constructor
    · intro hv
      obtain ⟨v', hv', rfl⟩ := Option.map_eq_some_iff.mp hv
      exact absurd (rootOf_iff.mpr ⟨v', hv', hw⟩) h
    · exact fun hv => absurd (rootOf_iff.mpr ⟨v, hv, hw⟩) h
  · exact Iff.rfl

theorem createRoot (hr : s.editor.Registry) (hroot : s.editor.rootOf root = .ok root)
    (name : String) : Avoids root (createRoot name) s := by
  obtain ⟨v, hv, -⟩ := rootOf_iff.mp hroot
  have hlt := hr.numbered root v hv
  have hadd : s.editor.Untouched root (s.editor.addRoot name) := by
    have hview : s.editor.Untouched root (s.editor.addView name none) :=
      untouched_addView hlt hr.views_nextView name nofun
    refine hview.trans ⟨?_, fun _ _ _ => Iff.rfl, fun _ _ _ _ _ => Iff.rfl, fun _ => Iff.rfl⟩
    exact Table.get?_insert_of_ne _ _ (Nat.ne_of_lt hlt)
  exact .get_bind (.bind (.change hadd) fun _ _ _ _ => .pure _)

theorem createIndirect (hr : s.editor.Registry) (hroot : s.editor.rootOf root = .ok root)
    {base : ViewId} (h : s.editor.rootOf base ≠ .ok root) (name : String) :
    Avoids root (createIndirect base name) s := by
  obtain ⟨v, hv, -⟩ := rootOf_iff.mp hroot
  have hne := ne_root hroot h
  have hview : s.editor.Untouched root (s.editor.addView name (some base)) :=
    untouched_addView (hr.numbered root v hv) hr.views_nextView name
      fun heq => hne (Option.some.inj heq)
  refine .get_bind ?_
  split
  · exact .throw _
  · split
    · exact .throw _
    · refine .ask_bind fun _ _ => .get_bind (.bind (.change ?_) fun _ _ _ _ => .pure _)
      exact hview.trans (.amend hne _ _)

/-- Killing a view of another root. The overlays of its document are found before the views
indirect to it go. -/
theorem kill (hw : s.editor.WellFormed) (ho : s.editor.Overlaying)
    (hroot : s.editor.rootOf root = .ok root) (h : s.editor.rootOf view ≠ .ok root) :
    Avoids root (kill view) s := by
  have hne := ne_root hroot h
  have haloof := hw.aloof hroot h
  refine .ask_bind fun v hv => .ask_bind fun d hd => ?_
  have hlive := get?_of_view hv
  split
  · rename_i r hb
    refine .change (haloof.removeIndirect (fun heq => h ?_) _)
    exact rootOf_iff.mpr ⟨v, hlive, by rw [hb, Option.getD_some, heq]⟩
  · rename_i hb
    obtain ⟨r, c, hs⟩ := hw.registry.shows_of_live hlive
    have hroots : view = r := by
      have hr := hs.root_eq
      rwa [hb, Option.getD_none] at hr
    obtain rfl := Except.ok.inj (hs.document_eq.symm.trans hd)
    have hoverlays := ho.apart hne (hroots ▸ hs.document)
    refine .bind (.change (hw.removeIndirects hroot hne)) fun _ t _ ht =>
      .bind (.unlockIf _ _ _) fun _ u _ hu => .change ?_
    have htu := ht.trans hu
    refine (htu.aloof haloof).removeRoot fun id o hid => ?_
    exact htu.unattached (hoverlays id o hid)

theorem setCurrent (view : ViewId) : Avoids root (setCurrent view) s :=
  .ask_bind fun _ _ => .besides fun _ => ⟨rfl, rfl, rfl, rfl⟩

theorem restoreCurrent (previous : Option ViewId) :
    Avoids root (Act.change (·.restoreCurrent previous)) s := by
  refine .besides fun e => ?_
  rw [Editor.restoreCurrent]
  repeat' split
  all_goals exact ⟨rfl, rfl, rfl, rfl⟩

theorem withCurrent {act : Act α}
    (h : ∀ t : Session, s.editor.Untouched root t.editor → Avoids root act t) (view : ViewId) :
    Avoids root (withCurrent view act) s := by
  have hset : s.editor.Untouched root { s.editor with current := some view } :=
    .of_parts rfl rfl rfl rfl
  exact .ask_bind fun _ _ => .get_bind (.bind (.change hset) fun _ t _ ht =>
    .bind (.attempt (h t ht)) fun _ _ _ _ => .bind (.restoreCurrent _) fun _ _ _ _ => .give _)

theorem narrow (h : s.editor.rootOf view ≠ .ok root) (p q : Nat) :
    Avoids root (narrow view p q) s :=
  .ask_bind fun _ _ => .ask_bind fun _ _ => .guarded (.changeShown h _)

theorem widen (h : s.editor.rootOf view ≠ .ok root) : Avoids root (widen view) s :=
  .ask_bind fun _ _ => .changeShown h _

theorem goto (h : s.editor.rootOf view ≠ .ok root) (pos : Nat) : Avoids root (goto view pos) s :=
  .ask_bind fun _ _ => .ask_bind fun _ _ => .bind (.changeShown h _) fun _ _ _ _ => .pure _

theorem lockForChange (h : r ≠ root) (d : Document) : Avoids root (lockForChange r d) s := by
  unfold Act.lockForChange
  split
  · exact .pure _
  · split
    · exact .pure _
    · exact .bind (.lock _ _) fun _ _ _ _ => .changeDocument h _

theorem announceChange (r : ViewId) (d : Document) : Avoids root (announceChange r d) s := by
  unfold Act.announceChange
  split
  · exact .call _
  · exact .pure _

theorem makeChange (h : s.editor.rootOf view ≠ .ok root) (c : Change) :
    Avoids root (makeChange view c) s := by
  refine .ask_bind fun d _ => .ask_bind fun r hr => .ask_bind fun isProtected _ => ?_
  have hne := ne_of_rootOf h hr
  split
  · exact .throw _
  · split
    · exact .pure _
    · split
      · exact .throw _
      · exact .bind (.lockForChange hne _) fun _ _ _ _ =>
          .bind (.announceChange _ _) fun _ _ _ _ => .changeDocument hne _

theorem insertRaw (h : s.editor.rootOf view ≠ .ok root) (pos : Nat) (text : Text) :
    Avoids root (insertRaw view pos text) s :=
  .bind (.makeChange h _) fun _ _ _ _ => .pure _

theorem deleteRaw (h : s.editor.rootOf view ≠ .ok root) (start stop : Nat) :
    Avoids root (deleteRaw view start stop) s :=
  .ask_bind fun _ _ => .bind (.makeChange h _) fun _ _ _ _ => .pure _

theorem insertAt (h : s.editor.rootOf view ≠ .ok root) (pos : Nat) (text : Text) :
    Avoids root (insertAt view pos text) s :=
  .ask_bind fun _ _ => .makeChange h _

theorem insert (h : s.editor.rootOf view ≠ .ok root) (text : Text) :
    Avoids root (insert view text) s :=
  .ask_bind fun _ _ => .ask_bind fun _ _ => .bind (.insertAt h _ _) fun _ _ _ ht =>
    .bind (.changeShown (ht.elsewhere h) _) fun _ _ _ _ => .pure _

theorem deleteRegion (h : s.editor.rootOf view ≠ .ok root) (p q : Nat) :
    Avoids root (deleteRegion view p q) s :=
  .ask_bind fun _ _ => .deleteRaw h _ _

theorem erase (h : s.editor.rootOf view ≠ .ok root) : Avoids root (erase view) s :=
  .ask_bind fun _ _ => .bind (.widen h) fun _ _ _ ht => .ask_bind fun _ _ =>
    .bind (.deleteRaw (ht.elsewhere h) _ _) fun _ _ _ _ => .pure _

theorem noteProperty (h : s.editor.rootOf view ≠ .ok root) (pos length : Nat) (key : String)
    (value : Value) : Avoids root (noteProperty view pos length key value) s := by
  unfold Act.noteProperty
  split
  · exact .throw _
  · exact .makeChange h _

theorem setUnmodified (h : s.editor.rootOf view ≠ .ok root) :
    Avoids root (setUnmodified view) s :=
  .ask_bind fun _ _ => .ask_bind fun _ hr =>
    .bind (.changeDocument (ne_of_rootOf h hr) _) fun _ _ _ _ => .unlockIf _ _ _

theorem setVisitedFile (hroot : s.editor.rootOf root = .ok root)
    (h : s.editor.rootOf view ≠ .ok root) (file : Option Path) :
    Avoids root (setVisitedFile view file) s := by
  have hne := ne_root hroot h
  refine .ask_bind fun v _ => .guarded (.ask_bind fun d _ => ?_)
  split
  · exact .pure _
  · dsimp only
    split
    · exact .bind (.lock _ _) fun _ _ _ _ => .bind (.changeDocument hne _) fun _ _ _ _ =>
        .unlockIf _ _ _
    · exact .bind (.changeDocument hne _) fun _ _ _ _ => .unlockIf _ _ _

theorem fileLockState (view : ViewId) : Avoids root (fileLockState view) s := by
  refine .ask_bind fun file _ => .get_bind ?_
  split
  · exact .pure _
  · exact .pure _

/-! ## Markers -/

variable {marker : MarkerId}

/-- A marker that is not in the root is in another one, if it is anywhere. -/
theorem home_elsewhere (hw : s.editor.WellFormed) (hm : ¬s.editor.Homed root marker)
    {u : UserMarker} (hu : s.editor.userMarkers.get? marker = some u) {home : MarkerHome}
    (hhome : u.home = some home) : s.editor.rootOf home.root ≠ .ok root := by
  obtain ⟨w, d, hs, -⟩ := shows_home hw hu hhome
  rw [hs.rootOf_eq]
  exact fun heq => hm ⟨u, home, hu, hhome, Except.ok.inj heq⟩

theorem liftMarker {home : Option MarkerHome}
    (h : ∀ x, home = some x → s.editor.rootOf x.root ≠ .ok root) :
    Avoids root (liftMarker marker home) s := by
  cases home with
  | none => exact .pure _
  | some x => exact .changeShown (h x rfl) _

theorem setHome (hm : ¬s.editor.Homed root marker) {home : Option MarkerHome}
    (h : ∀ x, home = some x → x.root ≠ root) : Avoids root (setHome marker home) s :=
  .change (.mark hm fun _ x hx hr => absurd hr (h x hx))

theorem placeMarker (hw : s.editor.WellFormed) (hm : ¬s.editor.Homed root marker)
    (h : s.editor.rootOf view ≠ .ok root) (pos : Nat) :
    Avoids root (placeMarker marker view pos) s := by
  refine .ask_bind fun u hu => .ask_bind fun r hr => .ask_bind fun d _ => ?_
  have hlift : ∀ x, u.home = some x → s.editor.rootOf x.root ≠ .ok root :=
    fun _ => home_elsewhere hw hm (get?_of_userMarker hu)
  have hshown := hw.registry.rootOf_ne h hr
  refine .bind (.liftMarker hlift) fun _ t _ ht =>
    .bind (.changeShown (ht.elsewhere hshown) _) fun _ t' _ ht' => ?_
  refine .setHome ((ht.trans ht').unhomed hm) fun x hx => ?_
  cases hx
  exact ne_of_rootOf h hr

theorem detachMarker (hw : s.editor.WellFormed) (hm : ¬s.editor.Homed root marker) :
    Avoids root (detachMarker marker) s :=
  .ask_bind fun _ hu => .bind (.liftMarker fun _ => home_elsewhere hw hm (get?_of_userMarker hu))
    fun _ _ _ ht => .setHome (ht.unhomed hm) nofun

theorem setMarkerAdvances (hw : s.editor.WellFormed) (hm : ¬s.editor.Homed root marker)
    (advances : Bool) : Avoids root (setMarkerAdvances marker advances) s := by
  refine .ask_bind fun u hu => ?_
  split
  · exact .change (.mark hm fun _ _ hx _ => hx)
  · rename_i home hhome
    exact .bind (.changeShown (home_elsewhere hw hm (get?_of_userMarker hu) hhome) _)
      fun _ _ _ ht => .change (.mark (ht.unhomed hm) fun _ _ hx _ => hx)

theorem makeMarker (hw : s.editor.WellFormed) : Avoids root makeMarker s :=
  .get_bind (.bind (.change (untouched_makeMarker hw.marking)) fun _ _ _ _ => .pure _)

theorem settleCopy (hw : s.editor.WellFormed) (hm : ¬s.editor.Homed root marker)
    {place : Option ViewId} (h : ∀ view, place = some view → s.editor.rootOf view ≠ .ok root)
    (advances : Bool) (pos : Option Nat) :
    Avoids root (settleCopy marker advances place pos) s := by
  have hmoves := moves_setMarkerAdvances hw marker advances
  refine .bind (.setMarkerAdvances hw hm advances) fun _ t hrun ht => ?_
  rw [hrun] at hmoves
  have hwt := hmoves.wellFormed hw
  have hmt := ht.unhomed hm
  split
  · exact .bind (.placeMarker hwt hmt (ht.elsewhere (h _ rfl)) _) fun _ _ _ _ => .pure _
  · exact .bind (.detachMarker hwt hmt) fun _ _ _ _ => .pure _

/-- A copy is put where the marker is that is copied. -/
theorem copyMarker (hw : s.editor.WellFormed) (hm : ¬s.editor.Homed root marker)
    (advances : Bool) : Avoids root (copyMarker marker advances) s := by
  rw [copyMarker_eq]
  refine .ask_bind fun place hplace => .ask_bind fun pos _ =>
    .bind (.makeMarker hw) fun copy t hrun ht => ?_
  have hmade : Session.Moves [] s (Act.makeMarker.run s).2 := .of_quiet (.makeMarker s)
  rw [hrun] at hmade
  have hcopy : ¬t.editor.Homed root copy := by
    rintro ⟨u, home, hu, hhome, -⟩
    rw [run_makeMarker] at hrun
    cases hrun
    rw [Session.editor_edit, Table.get?_insert_self] at hu
    cases hu
    cases hhome
  refine .settleCopy (hmade.wellFormed hw) hcopy (fun view heq => ?_) advances pos
  obtain ⟨u, hu, hview⟩ : ∃ u, s.editor.userMarkers.get? marker = some u ∧
      u.home.map MarkerHome.view = some view := by
    rw [Editor.markerView] at hplace
    cases hu : s.editor.userMarker marker with
    | error e =>
        rw [hu] at hplace
        cases hplace
    | ok u =>
        rw [hu] at hplace
        exact ⟨u, get?_of_userMarker hu, (Except.ok.inj hplace).trans heq⟩
  obtain ⟨home, hhome, rfl⟩ := Option.map_eq_some_iff.mp hview
  obtain ⟨v, d, hs, -⟩ := hw.marking.homed marker u home hu hhome
  refine ht.elsewhere fun hr => hm ⟨u, home, hu, hhome, ?_⟩
  exact Except.ok.inj (hs.rootOf_eq.symm.trans hr)

/-! ## Overlays -/

variable {overlay : OverlayId}

/-- An overlay that is attached, but not to the root, is attached to another one. -/
theorem attached_elsewhere (hw : s.editor.WellFormed) (ho : s.editor.Overlaying)
    (h : s.editor.overlayHomes.get? overlay ≠ some (.attached root))
    (hr : s.editor.overlayHomes.get? overlay = some (.attached r)) :
    s.editor.rootOf r ≠ .ok root := by
  obtain ⟨d, o, hd, -⟩ := (ho.attached overlay r).mp hr
  obtain ⟨w, hs, -⟩ := hw.registry.shows_root hd
  rw [hs.rootOf_eq]
  rintro ⟨⟩
  exact h hr

theorem setOverlayHome (h : s.editor.overlayHomes.get? overlay ≠ some (.attached root))
    {home : OverlayHome} (hhome : home ≠ .attached root) :
    Avoids root (setOverlayHome overlay home) s := .change (.rehouse h hhome _)

theorem makeOverlay (ho : s.editor.Overlaying) (h : s.editor.rootOf view ≠ .ok root) (p q : Nat)
    (front rear : Bool) : Avoids root (makeOverlay view p q front rear) s := by
  have hnew : s.editor.overlayHomes.get? s.editor.nextOverlay ≠ some (.attached root) :=
    fun heq => Nat.lt_irrefl _ ((ho.numbered _).mp ⟨_, heq⟩)
  refine .ask_bind fun r hr => .ask_bind fun d _ => .get_bind ?_
  have hne := ne_of_rootOf h hr
  refine .bind (.changeDocument hne _) fun _ t _ ht => .bind (.change ?_) fun _ _ _ _ => .pure _
  refine .rehouse (ht.unattached hnew) (fun heq => hne ?_) _
  cases heq
  rfl

theorem changeProperties (hw : s.editor.WellFormed) (ho : s.editor.Overlaying)
    (h : s.editor.overlayHomes.get? overlay ≠ some (.attached root))
    (f : PropertyList → PropertyList) : Avoids root (changeProperties overlay f) s := by
  refine .ask_bind fun o _ => .ask_bind fun home hhome => ?_
  split
  · exact .setOverlayHome h nofun
  · exact .changeShown (attached_elsewhere hw ho h (get?_of_overlayHome hhome)) _

theorem overlayPut (hw : s.editor.WellFormed) (ho : s.editor.Overlaying)
    (h : s.editor.overlayHomes.get? overlay ≠ some (.attached root)) (key : String)
    (value : Value) : Avoids root (overlayPut overlay key value) s :=
  .ask_bind fun _ _ => .bind (.changeProperties hw ho h _) fun _ _ _ _ => .pure _

theorem overlayRemove (hw : s.editor.WellFormed) (ho : s.editor.Overlaying)
    (h : s.editor.overlayHomes.get? overlay ≠ some (.attached root)) (key : String) :
    Avoids root (overlayRemove overlay key) s :=
  .ask_bind fun _ _ => .bind (.changeProperties hw ho h _) fun _ _ _ _ => .pure _

theorem deleteOverlay (hw : s.editor.WellFormed) (ho : s.editor.Overlaying)
    (h : s.editor.overlayHomes.get? overlay ≠ some (.attached root)) :
    Avoids root (deleteOverlay overlay) s := by
  refine .ask_bind fun home hhome => ?_
  split
  · exact .pure _
  · exact .ask_bind fun _ _ =>
      .bind (.changeShown (attached_elsewhere hw ho h (get?_of_overlayHome hhome)) _)
        fun _ _ _ ht => .setOverlayHome (ht.unattached h) nofun

theorem deleteAllOverlays (hw : s.editor.WellFormed) (ho : s.editor.Overlaying)
    (h : s.editor.rootOf view ≠ .ok root) : Avoids root (deleteAllOverlays view) s := by
  refine .ask_bind fun d hd => ?_
  rcases hw.registry.dead_or_shows view with hdead | ⟨v, r, c, hs⟩
  · rw [Editor.document_of_dead hdead] at hd
    cases hd
  · obtain rfl := Except.ok.inj (hs.document_eq.symm.trans hd)
    have hoverlays := ho.apart (ne_of_rootOf h hs.rootOf_eq) hs.document
    exact .bind (.changeShown h _) fun _ t _ ht =>
      .change (.detachAll fun id o hid => ht.unattached (hoverlays id o hid))

theorem liftOverlay (hw : s.editor.WellFormed) (ho : s.editor.Overlaying)
    (h : s.editor.overlayHomes.get? overlay ≠ some (.attached root)) {home : OverlayHome}
    (hhome : s.editor.overlayHomes.get? overlay = some home) :
    Avoids root (liftOverlay overlay home) s := by
  cases home with
  | detached o => exact .pure _
  | attached r =>
      exact .ask_bind fun _ _ => .bind (.changeShown (attached_elsewhere hw ho h hhome) _)
        fun _ _ _ _ => .pure _

theorem moveOverlay (hw : s.editor.WellFormed) (ho : s.editor.Overlaying)
    (hoverlay : s.editor.overlayHomes.get? overlay ≠ some (.attached root))
    (h : s.editor.rootOf view ≠ .ok root) (p q : Nat) :
    Avoids root (moveOverlay overlay view p q) s := by
  refine .ask_bind fun target htarget => .ask_bind fun home hhome => ?_
  have hne := ne_of_rootOf h htarget
  refine .bind (.liftOverlay hw ho hoverlay (get?_of_overlayHome hhome)) fun _ t _ ht =>
    .ask_bind fun _ _ => .bind (.changeDocument hne _) fun _ t' _ ht' => ?_
  refine .setOverlayHome ((ht.trans ht').unattached hoverlay) fun heq => hne ?_
  cases heq
  rfl

/-! ## Undo -/

theorem changeLog (h : s.editor.rootOf view ≠ .ok root) (f : UndoLog → UndoLog) :
    Avoids root (changeLog view f) s := .changeShown h _

/-- Markers that an undo puts back are looked for in the document of its own root. -/
theorem replay (hview : s.editor.rootOf view ≠ .ok root) (hr : s.editor.rootOf r ≠ .ok root)
    (record : Record) : Avoids root (replay view r record) s := by
  cases record with
  | insert pos n =>
      exact .ask_bind fun _ _ => .bind (.makeChange hview _) fun _ _ _ ht =>
        .bind (.goto (ht.elsewhere hview) _) fun _ _ _ _ => .pure _
  | delete pos text as =>
      exact .ask_bind fun _ _ => .ask_bind fun _ _ => .bind (.insertAt hview _ _)
        fun _ _ _ ht => .bind (.changeShown (ht.elsewhere hr) _) fun _ _ _ ht' =>
          .bind (.goto ((ht.trans ht').elsewhere hview) _) fun _ _ _ _ => .pure _
  | property start stop key value => exact .ask_bind fun _ _ => .call _
  | boundary => exact .pure _

theorem replayAll (hview : s.editor.rootOf view ≠ .ok root) (hr : s.editor.rootOf r ≠ .ok root)
    (records : List Record) : Avoids root (replayAll view r records) s := by
  induction records generalizing s with
  | nil => exact .pure _
  | cons record records ih =>
      exact .bind (.replay hview hr record) fun _ _ _ ht =>
        ih (ht.elsewhere hview) (ht.elsewhere hr)

theorem takeGroup (hr : s.editor.rootOf r ≠ .ok root) : Avoids root (takeGroup r) s :=
  .ask_bind fun _ _ => .bind (.changeLog hr _) fun _ _ _ _ => .give _

theorem undo (hw : s.editor.WellFormed) (h : s.editor.rootOf view ≠ .ok root) :
    Avoids root (undo view) s := by
  refine .ask_bind fun r hroot => .ask_bind fun d _ => .guarded ?_
  have hr := hw.registry.rootOf_ne h hroot
  refine .bind (.takeGroup hr) fun group t _ ht =>
    .bind (.changeLog (ht.elsewhere hr) _) fun _ t' _ ht' => ?_
  have hbegun := ht.trans ht'
  refine .bind (.attempt (.replayAll (hbegun.elsewhere h) (hbegun.elsewhere hr) _))
    fun outcome u _ hu => ?_
  have hreplayed := hbegun.trans hu
  refine .bind (.changeLog (hreplayed.elsewhere hr) _) fun _ u' _ hu' => ?_
  split
  · exact .pure _
  · exact .bind (.changeLog ((hreplayed.trans hu').elsewhere hr) _) fun _ _ _ _ => .throw _

theorem callHandlers (calls : List HandlerCall) : Avoids root (callHandlers calls) s :=
  .of_editor (moves_callHandlers calls s).2.2

theorem truncateLog (hr : s.editor.rootOf r ≠ .ok root) : Avoids root (truncateLog r) s :=
  .ask_bind fun _ _ => .get_bind (.bind (.changeLog hr _) fun _ _ _ _ =>
    .bind (.callHandlers _) fun _ _ _ _ => .give _)

theorem truncateUndo (hw : s.editor.WellFormed) (h : s.editor.rootOf view ≠ .ok root) :
    Avoids root (truncateUndo view) s :=
  .ask_bind fun _ hroot => .withCurrent
    (fun _ ht => .truncateLog (ht.elsewhere (hw.registry.rootOf_ne h hroot))) _

end Avoids

end Editing.Act
