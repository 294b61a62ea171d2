import Editing.Proofs.Session.Answering
import Editing.Proofs.Session.Avoiding
import Editing.Proofs.Session.Touching

/-!
# Isolated roots

No operation reaches a root that it has nothing to do with. It has to do with the root of the view
that it is given and with the roots where its marker and its overlay are; only cutting back all logs
concerns every root. A marker that is set elsewhere, and an overlay that is moved elsewhere, leaves
the root where it was, and this is all that happens there.
-/

namespace Editing

/-! ## What operations concern -/

namespace Op

/-- The view that an operation is given. -/
def viewGiven : Op → Option ViewId
  | createIndirect view _ | kill view | isLive view | baseOf view | nameOf view | setCurrent view
  | narrow view .. | widen view | isNarrowed view | atStart view | atEnd view | atLineStart view
  | atLineEnd view | point view | pointMin view | pointMax view | size view | goto view _
  | text view | fullText view | substring view .. | charAfter view _ | insert view _
  | deleteRegion view .. | erase view | insertRaw view .. | deleteRaw view ..
  | notePropertyRaw view .. | setReadOnly view _ | isReadOnly view | refuseReadOnly view
  | isModified view | setUnmodified view | modifiedTick view | charsModifiedTick view
  | setVisitedFile view _ | visitedFile view | fileLockState view | placeMarker _ view _
  | hasMarkerAt view _ | makeOverlay view .. | deleteAllOverlays view | overlaysIn view ..
  | overlaysAt view _ | overlayList view | moveOverlay _ view .. | charProperty view ..
  | closeGroup view | noteProperty view .. | disableUndo view | enableUndo view | clearUndo view
  | undoEnabled view | undoRecords view | undoSize view | undo view | truncateUndo view => some view
  | _ => none

/-- The overlay that an operation is given. -/
def overlayGiven : Op → Option OverlayId
  | moveOverlay overlay .. => some overlay
  | o => o.overlayNamed

/-- An operation has to do with a root: it is given a view, a marker or an overlay of the root, or
is done to every root. -/
def Concerns (o : Op) (e : Editor) (root : ViewId) : Prop :=
  o = .reclaim ∨ (∃ view, o.viewGiven = some view ∧ e.rootOf view = .ok root) ∨
    (∃ marker, o.markerNamed = some marker ∧ e.Homed root marker) ∨
      ∃ overlay, o.overlayGiven = some overlay ∧
        e.overlayHomes.get? overlay = some (.attached root)

variable {s : Session} {root : ViewId} {o : Op}

/-- An operation that does not concern a root leaves it alone. -/
theorem avoids (hw : s.editor.WellFormed) (hover : s.editor.Overlaying)
    (hroot : s.editor.rootOf root = .ok root) (ho : ¬o.Concerns s.editor root) :
    Act.Avoids root o.act s := by
  have hview : ∀ view, o.viewGiven = some view → s.editor.rootOf view ≠ .ok root :=
    fun view hgiven hr => ho (.inr (.inl ⟨view, hgiven, hr⟩))
  have hmarker : ∀ marker, o.markerNamed = some marker → ¬s.editor.Homed root marker :=
    fun marker hgiven hhomed => ho (.inr (.inr (.inl ⟨marker, hgiven, hhomed⟩)))
  have hoverlay : ∀ overlay, o.overlayGiven = some overlay →
      s.editor.overlayHomes.get? overlay ≠ some (.attached root) :=
    fun overlay hgiven hhome => ho (.inr (.inr (.inr ⟨overlay, hgiven, hhome⟩)))
  cases o with
  | reclaim => exact absurd (.inl rfl) ho
  | createRoot name => exact .map _ (.createRoot hw.registry hroot name)
  | createIndirect _ name => exact .map _ (.createIndirect hw.registry hroot (hview _ rfl) name)
  | kill _ => exact .quietly (.kill hw hover hroot (hview _ rfl))
  | setCurrent _ => exact .quietly (.setCurrent _)
  | narrow _ p q => exact .quietly (.narrow (hview _ rfl) p q)
  | widen _ => exact .quietly (.widen (hview _ rfl))
  | goto _ pos => exact .map _ (.goto (hview _ rfl) pos)
  | insert _ text => exact .map _ (.insert (hview _ rfl) text)
  | deleteRegion _ p q => exact .map _ (.deleteRegion (hview _ rfl) p q)
  | erase _ => exact .quietly (.erase (hview _ rfl))
  | insertRaw _ pos text => exact .map _ (.insertRaw (hview _ rfl) pos text)
  | deleteRaw _ start stop => exact .map _ (.deleteRaw (hview _ rfl) start stop)
  | notePropertyRaw _ _ _ _ _ => exact .quietly (.makeChange (hview _ rfl) _)
  | setReadOnly _ readOnly => exact .quietly (.setReadOnly (hview _ rfl) readOnly)
  | setInhibitReadOnly _ => exact .quietly (.besides fun _ => ⟨rfl, rfl, rfl, rfl⟩)
  | refuseReadOnly _ => exact .quietly (.ask _)
  | setUnmodified _ => exact .quietly (.setUnmodified (hview _ rfl))
  | setVisitedFile _ file => exact .quietly (.setVisitedFile hroot (hview _ rfl) file)
  | fileLockState _ => exact .map _ (.fileLockState _)
  | setLockProtocol _ => exact .quietly (.of_editor rfl)
  | makeMarker => exact .map _ (.makeMarker hw)
  | placeMarker _ _ pos => exact .quietly (.placeMarker hw (hmarker _ rfl) (hview _ rfl) pos)
  | detachMarker _ => exact .quietly (.detachMarker hw (hmarker _ rfl))
  | copyMarker _ advances => exact .map _ (.copyMarker hw (hmarker _ rfl) advances)
  | setMarkerAdvances _ advances =>
      exact .quietly (.setMarkerAdvances hw (hmarker _ rfl) advances)
  | makeOverlay _ p q front rear => exact .map _ (.makeOverlay hover (hview _ rfl) p q front rear)
  | overlayPut _ key value => exact .map _ (.overlayPut hw hover (hoverlay _ rfl) key value)
  | overlayRemove _ key => exact .map _ (.overlayRemove hw hover (hoverlay _ rfl) key)
  | deleteOverlay _ => exact .quietly (.deleteOverlay hw hover (hoverlay _ rfl))
  | deleteAllOverlays _ => exact .quietly (.deleteAllOverlays hw hover (hview _ rfl))
  | moveOverlay _ _ p q =>
      exact .quietly (.moveOverlay hw hover (hoverlay _ rfl) (hview _ rfl) p q)
  | closeGroup _ | disableUndo _ | enableUndo _ | clearUndo _ =>
      exact .quietly (.changeLog (hview _ rfl) _)
  | noteProperty _ _ _ _ _ => exact .quietly (.noteProperty (hview _ rfl) _ _ _ _)
  | undo _ => exact .quietly (.undo hw (hview _ rfl))
  | truncateUndo _ => exact .map _ (.truncateUndo hw (hview _ rfl))
  | setLimits _ _ _ _ =>
      exact .bind (.give _) fun _ _ _ _ => .quietly (.besides fun _ => ⟨rfl, rfl, rfl, rfl⟩)
  | setHandler _ => exact .quietly (.besides fun _ => ⟨rfl, rfl, rfl, rfl⟩)
  | nameOf _ => exact .ask_bind fun _ _ => .pure _
  | isLive _ | viewList | rootList | viewNamed _ | current | viewVisiting _ | limits =>
      exact .get_bind (.pure _)
  | _ => exact .map _ (.ask _)

end Op

/-! ## Taking one thing out of a root -/

namespace Editor

variable {e e' : Editor} {root view : ViewId} {marker : MarkerId} {overlay : OverlayId}

/-- The editor with a marker taken out of a root. -/
def withoutMarker (e : Editor) (root : ViewId) (marker : MarkerId) : Editor :=
  { e with
    documents := e.documents.modify root fun d => { d with markers := d.markers.erase marker }
    userMarkers := e.userMarkers.modify marker fun u => { u with home := none } }

/-- The editor with an overlay taken out of a root. -/
def withoutOverlay (e : Editor) (root : ViewId) (overlay : OverlayId) (o : Overlay) : Editor :=
  { e with
    documents := e.documents.modify root fun d => { d with overlays := d.overlays.erase overlay }
    overlayHomes := e.overlayHomes.insert overlay (.detached o) }

/-- The views of a root are what they were, with their points and bounds where they were. -/
def ViewsStay (root : ViewId) (e e' : Editor) : Prop :=
  ∀ view, e.rootOf view = .ok root →
    e'.rootOf view = .ok root ∧ e'.view view = e.view view ∧ e'.extent view = e.extent view

theorem Untouched.viewsStay (h : e.Untouched root e') : e.ViewsStay root e' := by
  intro view hr
  have hr' := h.rootOf_iff.mpr hr
  obtain ⟨v, hv, hroot⟩ := Editor.rootOf_iff.mp hr
  have hview : e'.view view = e.view view := by
    rw [view_of_get hv, view_of_get ((h.views view v hroot).mpr hv)]
  have hdocument : e'.document view = e.document view := by
    rw [Editor.document, Editor.document, hr, hr']
    simp only [bind, Except.bind, h.document]
  exact ⟨hr', hview, by rw [extent, extent, hview, hdocument]⟩

theorem ViewsStay.trans {e'' : Editor} (h : e.ViewsStay root e') (h' : e'.ViewsStay root e'') :
    e.ViewsStay root e'' := by
  intro view hr
  obtain ⟨hr', hview, hextent⟩ := h view hr
  obtain ⟨hr'', hview', hextent'⟩ := h' view hr'
  exact ⟨hr'', hview'.trans hview, hextent'.trans hextent⟩

/-- Points and bounds stay where they are when nothing else in the document of a root is set. -/
theorem viewsStay_amend (hw : e.Registry) (f : Document → Document)
    (hviews : e'.views = e.views) (hdocuments : e'.documents = e.documents.modify root f)
    (hextent : ∀ view v d, e.Shows view v root d → (f d).extent v.markers = d.extent v.markers) :
    e.ViewsStay root e' := by
  intro view hr
  obtain ⟨v, d, hs⟩ := hw.shows_of_rootOf hr
  have hs' : e'.Shows view v root (f d) := by
    refine ⟨hviews ▸ hs.live, hs.root_eq, ?_⟩
    rw [hdocuments, Table.get?_modify, if_pos rfl, hs.document, Option.map_some]
  refine ⟨hs'.rootOf_eq, by rw [hs'.view_eq, hs.view_eq], ?_⟩
  rw [hs'.extent_eq, hs.extent_eq, hextent view v d hs]

theorem WellFormed.viewsStay_withoutMarker (hw : e.WellFormed) {u : UserMarker}
    (hu : e.userMarkers.get? marker = some u) : e.ViewsStay root (e.withoutMarker root marker) := by
  refine viewsStay_amend hw.registry (fun d => { d with markers := d.markers.erase marker }) rfl rfl
    fun view v d hs => ?_
  have hout := hw.marking.foreign marker u view v hu hs.live
  apply Document.extent_congr
  · exact Table.get?_erase_of_ne _ hout.point.symm
  · exact Table.get?_erase_of_ne _ hout.low.symm
  · exact Table.get?_erase_of_ne _ hout.high.symm
  · rfl

theorem WellFormed.viewsStay_withoutOverlay (hw : e.WellFormed) (o : Overlay) :
    e.ViewsStay root (e.withoutOverlay root overlay o) :=
  viewsStay_amend hw.registry (fun d => { d with overlays := d.overlays.erase overlay }) rfl rfl
    fun _ _ _ _ => rfl

end Editor

namespace Session

open Editor

variable {s t : Session} {root r view : ViewId} {v : View} {d : Document} {marker : MarkerId}
  {overlay : OverlayId} {passed : List Session} {starts : List (Session × Op)}

/-- A marker that is set in a view of another root is taken out of the root where it was. -/
theorem run_placeMarker_elsewhere (hw : s.editor.WellFormed) (hm : s.editor.Homed root marker)
    (hs : s.editor.Shows view v r d) (hne : r ≠ root) (pos : Nat) :
    ∃ t, (Act.placeMarker marker view pos).run s = (.ok (), t) ∧
      (s.editor.withoutMarker root marker).Untouched root t.editor := by
  obtain ⟨u, home, hu, hhome, rfl⟩ := hm
  obtain ⟨w, hroot, -⟩ := hw.registry.shows_root hs.document
  obtain ⟨c, hlifted⟩ := Act.shows_lifted hroot marker u.home
  have hfound : s.editor.userMarker marker = .ok u := by rw [Editor.userMarker, hu]
  rw [Act.placeMarker, Act.run_ask_bind hfound, Act.run_ask_bind hs.rootOf_eq,
    Act.run_ask_bind hroot.document_eq, Act.run_bind_ok (Act.run_liftMarker hw hu),
    Act.run_bind_ok (Act.run_changeShown hlifted _), Act.setHome, Act.run_change, hhome]
  refine ⟨_, rfl, ?_, fun _ _ _ => Iff.rfl, fun id u' home' hhome' hr => ?_, fun _ => Iff.rfl⟩
  · exact (Table.get?_modify _ _ _ _).trans (if_neg hne.symm)
  · change (s.editor.userMarkers.modify marker _).get? id = _ ↔
      (s.editor.userMarkers.modify marker _).get? id = _
    rw [Table.get?_modify, Table.get?_modify]
    split
    · rename_i hid
      rw [hid, hu, Option.map_some, Option.map_some]
      constructor
      · rintro ⟨⟩
        cases hhome'
        exact absurd hr hne
      · rintro ⟨⟩
        cases hhome'
    · exact Iff.rfl

/-- An overlay that is moved to another root is taken out of the root where it was. -/
theorem run_moveOverlay_elsewhere (hw : s.editor.WellFormed) (ho : s.editor.Overlaying)
    (hhome : s.editor.overlayHomes.get? overlay = some (.attached root))
    (hs : s.editor.Shows view v r d) (hne : r ≠ root) (p q : Nat) :
    ∃ o t, s.editor.overlay overlay = .ok o ∧
      (Act.moveOverlay overlay view p q).run s = (.ok (), t) ∧
      (s.editor.withoutOverlay root overlay o).Untouched root t.editor := by
  obtain ⟨c, o, hc, ho⟩ := (ho.attached overlay root).mp hhome
  obtain ⟨w, hroot, -⟩ := hw.registry.shows_root hc
  obtain ⟨x, htarget, -⟩ := hw.registry.shows_root hs.document
  have hfound : s.editor.overlayHome overlay = .ok (.attached root) :=
    overlayHome_of_get hhome
  have hattached : s.editor.attachedOverlay root overlay = .ok o := by
    rw [Editor.attachedOverlay, hroot.document_eq]
    simp only [bind, Except.bind, ho]
    rfl
  have hoverlay : s.editor.overlay overlay = .ok o := by
    rw [Editor.overlay, hfound]
    exact hattached
  have hlift : (Act.liftOverlay overlay (.attached root)).run s = (.ok o, s.onDocument root fun d =>
      { d with overlays := d.overlays.erase overlay }) := by
    rw [Act.liftOverlay, Act.run_ask_bind hattached, Act.run_bind_ok (Act.run_changeShown hroot _),
      Act.run_pure]
  have hlifted := shows_onDocument htarget root fun d =>
    { d with overlays := d.overlays.erase overlay }
  rw [Act.moveOverlay, Act.run_ask_bind hs.rootOf_eq, Act.run_ask_bind hfound,
    Act.run_bind_ok hlift, Act.run_ask_bind hlifted.document_eq,
    Act.run_bind_ok (Act.run_changeDocument _ _ _), Act.setOverlayHome, Act.run_change]
  refine ⟨o, _, hoverlay, rfl, ?_, fun _ _ _ => Iff.rfl, fun _ _ _ _ _ => Iff.rfl, fun id => ?_⟩
  · exact (Table.get?_modify _ _ _ _).trans (if_neg hne.symm)
  · change (s.editor.overlayHomes.insert overlay _).get? id = _ ↔
      (s.editor.overlayHomes.insert overlay _).get? id = _
    rw [Table.get?_insert, Table.get?_insert]
    split
    · constructor
      · rintro ⟨⟩
        exact absurd rfl hne
      · rintro ⟨⟩
    · exact Iff.rfl

/-! ## Steps -/

theorem Walk.untouched (h : s.Walk starts passed t) (hs : s.Reachable)
    (hroot : s.editor.rootOf root = .ok root)
    (hstarts : ∀ x ∈ starts, ¬x.2.Concerns x.1.editor root) :
    s.editor.Untouched root t.editor := by
  induction h with
  | rest => exact .refl root s.editor
  | @op t starts passed hwalk o ih =>
      have htouch := ih fun x hx => hstarts x (List.mem_append_left _ hx)
      have ht := hs.walk hwalk
      have hover : t.editor.Overlaying := overlaying_lasting.reachable fresh_overlaying ht
      have ho : ¬o.Concerns t.editor root :=
        hstarts (t, o) (List.mem_append_right _ (List.mem_singleton_self _))
      exact htouch.trans
        (o.avoids ht.atRest.wellFormed hover (htouch.rootOf_iff.mpr hroot) ho)
  | @switch t u starts passed hwalk hswitch ih =>
      refine (ih hstarts).trans ?_
      rcases hswitch with rfl | ⟨view, v, -, rfl⟩
      · exact .refl root _
      · exact .of_parts rfl rfl rfl rfl

/-- A step leaves a live root alone if none of its operations concerns the root. Only a marker that
is set in a view of another root, and an overlay that is moved to another root, leave the root where
they were, and then nothing else changes there. -/
theorem roots_isolated (h : s.Reachable) (hroot : root ∈ s.editor.rootList) :
    (∀ step : Step, (∀ x ∈ step.starts s, ¬x.2.Concerns x.1.editor root) →
      s.editor.Untouched root (step.take s).2.editor ∧
        s.editor.ViewsStay root (step.take s).2.editor) ∧
    (∀ marker view pos, s.editor.Homed root marker → s.editor.rootOf view ≠ .ok root →
      (∃ e, (Op.placeMarker marker view pos).act.run s = (.error e, s)) ∨
        ∃ t, (Op.placeMarker marker view pos).act.run s = (.ok .done, t) ∧
          (s.editor.withoutMarker root marker).Untouched root t.editor ∧
          s.editor.ViewsStay root t.editor) ∧
    ∀ overlay view p q, s.editor.overlayHomes.get? overlay = some (.attached root) →
      s.editor.rootOf view ≠ .ok root →
      (∃ e, (Op.moveOverlay overlay view p q).act.run s = (.error e, s)) ∨
        ∃ o t, s.editor.overlay overlay = .ok o ∧
          (Op.moveOverlay overlay view p q).act.run s = (.ok .done, t) ∧
          (s.editor.withoutOverlay root overlay o).Untouched root t.editor ∧
          s.editor.ViewsStay root t.editor := by
  have hw := h.atRest.wellFormed
  have hover : s.editor.Overlaying := overlaying_lasting.reachable fresh_overlaying h
  obtain ⟨x, hx, hb⟩ := Act.mem_rootList.mp hroot
  have hself : s.editor.rootOf root = .ok root :=
    rootOf_iff.mpr ⟨x, hx, by rw [hb, Option.getD_none]⟩
  refine ⟨fun step hstarts => ?_, fun marker view pos hm hview => ?_,
    fun overlay view p q hhome hview => ?_⟩
  · have htouch := (step.walk s h.atRest).untouched h hself hstarts
    exact ⟨htouch, htouch.viewsStay⟩
  · obtain ⟨u, home, hu, -⟩ := id hm
    rw [Op.act, Act.run_quietly]
    rcases hw.registry.dead_or_shows view with hdead | ⟨v, r, d, hs⟩
    · have hfound : s.editor.userMarker marker = .ok u := by rw [Editor.userMarker, hu]
      rw [Act.placeMarker, Act.run_ask_bind hfound,
        Act.run_ask_bind_error (Editor.rootOf_of_dead hdead)]
      exact .inl ⟨_, rfl⟩
    · obtain ⟨t, hrun, htouch⟩ :=
        run_placeMarker_elsewhere hw hm hs (ne_of_rootOf hview hs.rootOf_eq) pos
      have hstay : s.editor.ViewsStay root t.editor :=
        (hw.viewsStay_withoutMarker hu).trans htouch.viewsStay
      rw [hrun]
      exact .inr ⟨t, rfl, htouch, hstay⟩
  · rw [Op.act, Act.run_quietly]
    rcases hw.registry.dead_or_shows view with hdead | ⟨v, r, d, hs⟩
    · rw [Act.moveOverlay, Act.run_ask_bind_error (Editor.rootOf_of_dead hdead)]
      exact .inl ⟨_, rfl⟩
    · obtain ⟨o, t, ho, hrun, htouch⟩ :=
        run_moveOverlay_elsewhere hw hover hhome hs (ne_of_rootOf hview hs.rootOf_eq) p q
      have hstay : s.editor.ViewsStay root t.editor :=
        (hw.viewsStay_withoutOverlay o).trans htouch.viewsStay
      rw [hrun]
      exact .inr ⟨o, t, ho, rfl, htouch, hstay⟩

/-- Two roots, the second with a marker and an overlay. -/
def twoRoots : Session :=
  (takeAll [.op (.createRoot "v"), .op (.insert 0 "abc".toList), .op (.createRoot "w"),
    .op (.insert 1 "xyz".toList), .op .makeMarker, .op (.placeMarker 6 1 2),
    .op (.makeOverlay 1 0 2 false false)] (fresh .default none)).2

/-- The second root is left alone when the first is killed, and loses no more than its marker or its
overlay to the first. -/
theorem twoRoots_isolated :
    twoRoots.Reachable ∧ 1 ∈ twoRoots.editor.rootList ∧
      twoRoots.editor.Untouched 1 (twoRoots.after (.kill 0)).editor ∧
      (∃ t, (Op.placeMarker 6 0 1).act.run twoRoots = (.ok .done, t) ∧
        (twoRoots.editor.withoutMarker 1 6).Untouched 1 t.editor) ∧
      ∃ o t, (Op.moveOverlay 0 0 1 2).act.run twoRoots = (.ok .done, t) ∧
        (twoRoots.editor.withoutOverlay 1 0 o).Untouched 1 t.editor := by
  have hreachable : twoRoots.Reachable := reachable_takeAll _ (.fresh .default none)
  have hroot : 1 ∈ twoRoots.editor.rootList := by decide +kernel
  have hview : twoRoots.editor.rootOf 0 ≠ .ok 1 := by decide +kernel
  have hmarker : twoRoots.editor.Homed 1 6 :=
    ⟨⟨some ⟨1, 1⟩, false⟩, ⟨1, 1⟩, by decide +kernel, rfl, rfl⟩
  have hoverlay : twoRoots.editor.overlayHomes.get? 0 = some (.attached 1) := rfl
  obtain ⟨hsteps, hplaced, hmoved⟩ := roots_isolated hreachable hroot
  have hkill : ¬(Op.kill 0).Concerns twoRoots.editor 1 := by
    rintro (h | ⟨view, hgiven, hr⟩ | ⟨_, hgiven, -⟩ | ⟨_, hgiven, -⟩)
    · cases h
    · cases hgiven
      exact hview hr
    · cases hgiven
    · cases hgiven
  obtain ⟨hkilled, -⟩ := hsteps (.op (.kill 0)) fun x hx => by
    rw [List.mem_singleton.mp hx]
    exact hkill
  have hplace : ((Op.placeMarker 6 0 1).act.run twoRoots).1.isOk = true := by decide +kernel
  have hmove : ((Op.moveOverlay 0 0 1 2).act.run twoRoots).1.isOk = true := by decide +kernel
  refine ⟨hreachable, hroot, hkilled, ?_, ?_⟩
  · rcases hplaced 6 0 1 hmarker hview with ⟨e, he⟩ | ⟨t, hrun, htouch, -⟩
    · rw [he] at hplace
      cases hplace
    · exact ⟨t, hrun, htouch⟩
  · rcases hmoved 0 0 1 2 hoverlay hview with ⟨e, he⟩ | ⟨o, t, -, hrun, htouch, -⟩
    · rw [he] at hmove
      cases hmove
    · exact ⟨o, t, hrun, htouch⟩

end Session

end Editing
