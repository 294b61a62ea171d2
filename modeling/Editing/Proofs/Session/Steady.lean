import Editing.Proofs.Session.Move
import Editing.Proofs.Session.Population

/-!
# Moves keep everything together

Every move leads from an editor in which views, documents, markers and logs fit together to another
one. What a change does to the session is found in the document of its root: the lock it took, and
the change applied.
-/

namespace Editing

namespace UndoLog.Step

variable {l m : UndoLog}

theorem wellFormed (h : l.Step m) (hl : l.WellFormed) : m.WellFormed := by
  cases h with
  | boundary => exact hl.boundary
  | disable => exact hl.disable
  | enable => exact hl.enable
  | clear => exact hl.clear
  | advance => exact hl.boundary.nextGroup
  | truncate limits => exact (CutTo.truncate l limits).wellFormed hl

theorem suspended_eq (h : l.Step m) : m.suspended = l.suspended := by
  cases h with
  | boundary => exact suspended_boundary l
  | disable => rfl
  | enable => exact (CutTo.enable l).suspended_eq
  | clear => rfl
  | advance => rw [suspended_nextGroup, suspended_boundary]
  | truncate limits => exact (CutTo.truncate l limits).suspended_eq

theorem replaying_eq (h : l.Step m) : m.replaying = l.replaying := by
  cases h with
  | boundary => exact replaying_boundary l
  | disable => rfl
  | enable => exact (CutTo.enable l).replaying_eq
  | clear => rfl
  | advance => rw [replaying_nextGroup, replaying_boundary]
  | truncate limits => exact (CutTo.truncate l limits).replaying_eq

/-- A log that records no change closes its newest group or forgets its oldest records. -/
theorem records_eq (h : l.Step m) (hl : l.WellFormed) :
    m.records = Record.close l.records ∨ ∃ k, m.records = l.records.take k := by
  have hclose : l.boundary.records = Record.close l.records ∨
      ∃ k, l.boundary.records = l.records.take k := by
    rw [hl.records_boundary]
    split
    · exact Or.inl rfl
    · exact Or.inr ⟨l.records.length, (List.take_length ..).symm⟩
  cases h with
  | boundary => exact hclose
  | disable => exact Or.inr ((CutTo.disable l).records hl)
  | enable => exact Or.inr ((CutTo.enable l).records hl)
  | clear => exact Or.inr ((CutTo.clear l).records hl)
  | advance => rwa [records_nextGroup]
  | truncate limits => exact Or.inr ((CutTo.truncate l limits).records hl)

theorem adjusted_subset (h : l.Step m) (hl : l.WellFormed) :
    ∀ a ∈ Record.adjusted m.records, a ∈ Record.adjusted l.records := by
  rcases h.records_eq hl with heq | ⟨k, heq⟩
  · rw [heq, Record.adjusted_close]
    exact fun a ha => ha
  · rw [heq]
    exact Record.adjusted_take k l.records

end UndoLog.Step

namespace Session

variable {s t : Session} {view root : ViewId} {v : View} {d : Document}

/-! ## What a change does -/

@[simp] theorem editor_announced (s : Session) (root : ViewId) (d : Document) :
    (s.announced root d).editor = s.editor := by
  unfold announced
  split <;> rfl

theorem editor_prepared (s : Session) (root : ViewId) (d : Document) :
    (s.prepared root d).editor =
      if d.wanted.isSome then (s.onDocument root fun d => { d with locked := true }).editor
      else s.editor := by
  rw [prepared]
  cases d.wanted with
  | none => rfl
  | some path =>
      rw [onDocument_editor, editor_granted]
      rfl

@[simp] theorem views_prepared (s : Session) (root : ViewId) (d : Document) :
    (s.prepared root d).editor.views = s.editor.views := by
  rw [editor_prepared]
  split <;> rfl

theorem documents_prepared (hd : s.editor.documents.get? root = some d) (r : ViewId) :
    (s.prepared root d).editor.documents.get? r =
      if r = root then some { d with locked := d.locked || d.wanted.isSome }
      else s.editor.documents.get? r := by
  rw [editor_prepared]
  split
  · rename_i hw
    rw [get?_onDocument, hw, Bool.or_true]
    split
    · rename_i hr
      rw [hr, hd, Option.map_some]
    · rfl
  · rename_i hw
    rw [Bool.not_eq_true] at hw
    rw [hw, Bool.or_false]
    split
    · rename_i hr
      rw [hr, hd]
    · rfl

/-- The documents after a change: only that of the root is another one. -/
theorem documents_changed (hd : s.editor.documents.get? root = some d) (c : Change) (r : ViewId) :
    (s.changed root d c).editor.documents.get? r =
      if r = root then
        some (Document.apply { d with locked := d.locked || d.wanted.isSome } c)
      else s.editor.documents.get? r := by
  rw [changed, get?_onDocument, editor_announced, documents_prepared hd]
  split <;> rfl

@[simp] theorem views_changed (s : Session) (root : ViewId) (d : Document) (c : Change) :
    (s.changed root d c).editor.views = s.editor.views := by
  rw [changed, views_onDocument, editor_announced, views_prepared]

@[simp] theorem userMarkers_changed (s : Session) (root : ViewId) (d : Document) (c : Change) :
    (s.changed root d c).editor.userMarkers = s.editor.userMarkers := by
  rw [changed, userMarkers_onDocument, editor_announced, editor_prepared]
  split <;> rfl

theorem locks_changed (s : Session) (root : ViewId) (d : Document) (c : Change) :
    (s.changed root d c).locks = s.locks := by
  unfold Session.changed announced prepared granted
  repeat' split
  all_goals rfl

theorem shows_changed {c : Change} (hd : s.editor.documents.get? root = some d)
    (h : s.editor.Shows view v root d) :
    (s.changed root d c).editor.Shows view v root
      (Document.apply { d with locked := d.locked || d.wanted.isSome } c) :=
  ⟨by rw [views_changed, h.live], h.root_eq, by rw [documents_changed hd, if_pos rfl]⟩

/-! ## Moves -/

theorem wellFormed_onDocument (h : s.editor.WellFormed) {f : Document → Document}
    (hf : ∀ d, s.editor.documents.get? root = some d → s.editor.Admits root (f d)) :
    (s.onDocument root f).editor.WellFormed :=
  h.replaceDocument hf

theorem wellFormed_aside (h : s.editor.WellFormed) {f : Document → Document}
    (hf : ∀ d, (f d).markers = d.markers ∧ (f d).length = d.length ∧ (f d).log = d.log) :
    (s.onDocument root f).editor.WellFormed := by
  apply wellFormed_onDocument h
  intro d hd
  obtain ⟨hmarkers, hlength, hlog⟩ := hf d
  exact (h.admits hd).congr hmarkers hlength hlog

theorem wellFormed_overlaid (h : s.editor.WellFormed) (overlay : OverlayId) (home : OverlayHome) :
    (s.overlaid overlay home).editor.WellFormed :=
  h.congr rfl rfl rfl rfl rfl rfl

theorem wellFormed_edit (h : s.editor.WellFormed) {f : Editor → Editor}
    (hf : ∀ e, (f e).views = e.views ∧ (f e).documents = e.documents ∧ (f e).nextView = e.nextView ∧
      (f e).current = e.current ∧ (f e).nextMarker = e.nextMarker ∧
      (f e).userMarkers = e.userMarkers) :
    (s.edit f).editor.WellFormed := by
  obtain ⟨h1, h2, h3, h4, h5, h6⟩ := hf s.editor
  exact h.congr h1 h2 h3 h4 h5 h6

theorem wellFormed_prepared (h : s.editor.WellFormed) (root : ViewId) (d : Document) :
    (s.prepared root d).editor.WellFormed := by
  rw [editor_prepared]
  split
  · exact wellFormed_aside h fun _ => ⟨rfl, rfl, rfl⟩
  · exact h

theorem wellFormed_changed (h : s.editor.WellFormed) (hd : s.editor.documents.get? root = some d)
    {c : Change} (hrange : c.rangeError d.length = none) :
    (s.changed root d c).editor.WellFormed := by
  apply wellFormed_onDocument (by rw [editor_announced]; exact wellFormed_prepared h root d)
  intro c' hc'
  rw [editor_announced] at hc' ⊢
  have hready := hc'
  rw [documents_prepared hd, if_pos rfl] at hready
  cases hready
  exact ((wellFormed_prepared h root d).admits hc').apply hrange

theorem markers_setPosition (d : Document) (marker id : MarkerId) (pos : Nat) :
    (d.setPosition marker pos).markers.get? id =
      if id = marker then (d.markers.get? id).map fun m => { m with position := pos }
      else d.markers.get? id :=
  Table.get?_modify _ _ _ _

/-- A view may move its own markers to places in order and within the text. -/
theorem admits_extent (h : s.editor.WellFormed) (hs : s.editor.Shows view v root d) {c : Document}
    {x : Extent} (hpoint : c.markers.get? v.markers.point = some ⟨x.point, false, .view⟩)
    (hlow : c.markers.get? v.markers.low = some ⟨x.low, false, .view⟩)
    (hhigh : c.markers.get? v.markers.high = some ⟨x.high, true, .view⟩)
    (hframe : ∀ id, v.markers.Outside id → c.markers.get? id = d.markers.get? id)
    (hlength : c.length = d.length) (hlog : c.log = d.log) (h1 : x.low ≤ x.point)
    (h2 : x.point ≤ x.high) (h3 : x.high ≤ d.length) :
    s.editor.Admits root c ∧ c.extent v.markers = x := by
  obtain ⟨hseats, hx⟩ := Document.seats_of_markers hpoint hlow hhigh h1 h2 (hlength.symm ▸ h3)
  exact ⟨h.admits_reseated hs hseats hframe hlength hlog, hx⟩

theorem admits_setExtent (h : s.editor.WellFormed) (hs : s.editor.Shows view v root d) {x : Extent}
    (h1 : x.low ≤ x.point) (h2 : x.point ≤ x.high) (h3 : x.high ≤ d.length) :
    s.editor.Admits root (d.setExtent v.markers x) ∧
    (d.setExtent v.markers x).extent v.markers = x := by
  have hd := h.marking.distinct view v hs.live
  have hold := h.marking.seated view v root d hs
  refine admits_extent h hs ?_ ?_ ?_ ?_ rfl rfl h1 h2 h3
  · simp only [Document.setExtent, markers_setPosition, hold.point, hd.low_ne.symm, hd.high_ne.symm,
      if_true, if_false, Option.map_some]
  · simp only [Document.setExtent, markers_setPosition, hold.low, hd.low_ne, hd.high_ne_low.symm,
      if_true, if_false, Option.map_some]
  · simp only [Document.setExtent, markers_setPosition, hold.high, hd.high_ne, hd.high_ne_low,
      if_true, if_false, Option.map_some]
  · intro id hid
    simp only [Document.setExtent, markers_setPosition, hid.point, hid.low, hid.high, if_false]

theorem admits_widen (h : s.editor.WellFormed) (hs : s.editor.Shows view v root d) :
    s.editor.Admits root ((d.setPosition v.markers.low 0).setPosition v.markers.high d.length) ∧
      ((d.setPosition v.markers.low 0).setPosition v.markers.high d.length).extent v.markers =
        ⟨(d.extent v.markers).point, 0, d.length⟩ := by
  have hd := h.marking.distinct view v hs.live
  have hold := h.marking.seated view v root d hs
  refine admits_extent h hs ?_ ?_ ?_ ?_ rfl rfl (Nat.zero_le _)
    (Nat.le_trans hold.le_high hold.high_le) (Nat.le_refl _)
  · simp only [markers_setPosition, hold.point, hd.low_ne.symm, hd.high_ne.symm, if_false]
  · simp only [markers_setPosition, hold.low, hd.high_ne_low.symm, if_true, if_false,
      Option.map_some]
  · simp only [markers_setPosition, hold.high, hd.high_ne_low, if_true, if_false, Option.map_some]
  · intro id hid
    simp only [markers_setPosition, hid.low, hid.high, if_false]

theorem admits_goto (h : s.editor.WellFormed) (hs : s.editor.Shows view v root d) {pos : Nat}
    (hlow : (d.extent v.markers).low ≤ pos) (hhigh : pos ≤ (d.extent v.markers).high) :
    s.editor.Admits root (d.setPosition v.markers.point pos) ∧
      (d.setPosition v.markers.point pos).extent v.markers =
        { d.extent v.markers with point := pos } := by
  have hd := h.marking.distinct view v hs.live
  have hold := h.marking.seated view v root d hs
  refine admits_extent h hs ?_ ?_ ?_ ?_ rfl rfl hlow hhigh hold.high_le
  · simp only [markers_setPosition, hold.point, if_true, Option.map_some]
  · simp only [markers_setPosition, hold.low, hd.low_ne, if_false]
  · simp only [markers_setPosition, hold.high, hd.high_ne, if_false]
  · intro id hid
    simp only [markers_setPosition, hid.point, if_false]

/-! ## Markers lifted and settled -/

theorem documents_lifted (s : Session) (marker : MarkerId) (home : Option MarkerHome) (r : ViewId) :
    (s.lifted marker home).editor.documents.get? r = (s.editor.documents.get? r).map fun d =>
      if home.map MarkerHome.root = some r then { d with markers := d.markers.erase marker }
      else d := by
  cases home with
  | none => simp [lifted]
  | some home =>
      rw [lifted, get?_onDocument]
      by_cases hr : r = home.root
      · simp [hr]
      · simp [hr, Ne.symm hr]

theorem documents_advancing (s : Session) (marker : MarkerId) (advances : Bool)
    (home : Option MarkerHome) (r : ViewId) :
    (s.advancing marker advances home).editor.documents.get? r =
      (s.editor.documents.get? r).map fun d =>
        if home.map MarkerHome.root = some r then
          { d with markers := Markers.setAdvances d.markers marker advances }
        else d := by
  cases home with
  | none => simp [advancing]
  | some home =>
      rw [advancing, get?_onDocument]
      by_cases hr : r = home.root
      · simp [hr]
      · simp [hr, Ne.symm hr]

/-- Lifting a marker touches the documents and nothing else. -/
theorem editor_lifted (s : Session) (marker : MarkerId) (home : Option MarkerHome) :
    (s.lifted marker home).editor =
      { s.editor with documents := (s.lifted marker home).editor.documents } := by
  cases home <;> rfl

theorem editor_advancing (s : Session) (marker : MarkerId) (advances : Bool)
    (home : Option MarkerHome) :
    (s.advancing marker advances home).editor =
      { s.editor with documents := (s.advancing marker advances home).editor.documents } := by
  cases home <;> rfl

/-- A marker that has been lifted lies nowhere as a user's. -/
theorem not_user_lifted (h : s.editor.WellFormed) {marker : MarkerId} {u : UserMarker}
    (hu : s.editor.userMarkers.get? marker = some u) {r : ViewId} {c : Document} {m : Marker}
    (hc : s.editor.documents.get? r = some c)
    (hm : (if u.home.map MarkerHome.root = some r then { c with markers := c.markers.erase marker }
      else c).markers.get? marker = some m) : m.kind ≠ .user := by
  intro hkind
  split at hm
  · rw [Table.get?_erase_self] at hm
    cases hm
  · rename_i hhome
    obtain ⟨u', w, hu', hw⟩ := h.marking.known r c marker m hc hm hkind
    rw [Option.some.inj (hu.symm.trans hu'), hw] at hhome
    exact hhome rfl

theorem wellFormed_detached (h : s.editor.WellFormed) {marker : MarkerId} {u : UserMarker}
    (hu : s.editor.userMarkers.get? marker = some u) :
    ((s.lifted marker u.home).rehomed marker none).editor.WellFormed := by
  rw [rehomed, editor_edit, editor_lifted]
  refine h.settle hu (fun r => documents_lifted s marker u.home r) ?_ ?_ ?_ ?_ ?_
  · intro r c
    split <;> rfl
  · intro r c
    split <;> rfl
  · intro r c id hid
    split
    · exact Table.get?_erase_of_ne _ hid
    · rfl
  · intro w r hhome
    cases hhome
  · exact fun r c m hc hm hkind => absurd hkind (not_user_lifted h hu hc hm)

theorem wellFormed_placed (h : s.editor.WellFormed) {marker : MarkerId} {u : UserMarker}
    (hu : s.editor.userMarkers.get? marker = some u) (hs : s.editor.Shows view v root d) {pos : Nat}
    (hpos : pos ≤ d.length) :
    (((s.lifted marker u.home).onDocument root fun shown =>
      { shown with markers := shown.markers.insert marker ⟨pos, u.advances, .user⟩ }).rehomed
        marker (some ⟨view, root⟩)).editor.WellFormed := by
  rw [rehomed, editor_edit, onDocument_editor, editor_lifted]
  let lift (r : ViewId) (c : Document) : Document :=
    if u.home.map MarkerHome.root = some r then { c with markers := c.markers.erase marker } else c
  have hlength : ∀ r c, (lift r c).length = c.length := by
    intro r c
    simp only [lift]
    split <;> rfl
  have hlog : ∀ r c, (lift r c).log = c.log := by
    intro r c
    simp only [lift]
    split <;> rfl
  have hframe : ∀ r c id, id ≠ marker → (lift r c).markers.get? id = c.markers.get? id := by
    intro r c id hid
    simp only [lift]
    split
    · exact Table.get?_erase_of_ne _ hid
    · rfl
  refine h.settle hu (g := fun r c =>
    if r = root then
      { lift r c with markers := (lift r c).markers.insert marker ⟨pos, u.advances, .user⟩ }
    else lift r c) ?_ ?_ ?_ ?_ ?_ ?_
  · intro r
    rw [Table.get?_modify, documents_lifted]
    cases s.editor.documents.get? r <;> by_cases hr : r = root <;> simp [hr, lift]
  · intro r c
    split
    · exact hlength r c
    · exact hlength r c
  · intro r c
    split
    · exact hlog r c
    · exact hlog r c
  · intro r c id hid
    split
    · exact (Table.get?_insert_of_ne _ _ hid).trans (hframe r c id hid)
    · exact hframe r c id hid
  · intro w r hhome
    cases hhome
    refine ⟨v, d, hs, pos, ?_, ?_⟩
    · rw [if_pos rfl]
      exact Table.get?_insert_self _ _ _
    · rw [if_pos rfl]
      change pos ≤ (lift root d).length
      rw [hlength]
      exact hpos
  · intro r c m hc hm hkind
    split at hm
    · rename_i hr
      exact ⟨view, by rw [hr]⟩
    · exact absurd hkind (not_user_lifted h hu hc hm)

theorem wellFormed_advancing (h : s.editor.WellFormed) {marker : MarkerId} {u : UserMarker}
    (hu : s.editor.userMarkers.get? marker = some u) (advances : Bool) :
    ((s.advancing marker advances u.home).edit fun e =>
      { e with userMarkers := e.userMarkers.modify marker fun m =>
        { m with advances := advances } }).editor.WellFormed := by
  rw [editor_edit, editor_advancing]
  refine h.settle hu (fun r => documents_advancing s marker advances u.home r) ?_ ?_ ?_ ?_ ?_
  · intro r c
    split <;> rfl
  · intro r c
    split <;> rfl
  · intro r c id hid
    split
    · exact (Table.get?_modify _ _ _ _).trans (if_neg hid)
    · rfl
  · intro w r hhome
    obtain ⟨v, c, hs, p, hp, hle⟩ := h.marking.homed marker u ⟨w, r⟩ hu hhome
    refine ⟨v, c, hs, p, ?_, ?_⟩
    · rw [show u.home = some ⟨w, r⟩ from hhome, Option.map_some, if_pos rfl]
      exact (Table.get?_modify _ _ _ _).trans (by rw [if_pos rfl, hp, Option.map_some])
    · split <;> exact hle
  · intro r c m hc hm hkind
    have hold : ∃ m', c.markers.get? marker = some m' ∧ m'.kind = .user := by
      split at hm
      · rw [show (Markers.setAdvances c.markers marker advances).get? marker = _
          from Table.get?_modify _ _ _ _, if_pos rfl] at hm
        obtain ⟨m', hm', rfl⟩ := Option.map_eq_some_iff.mp hm
        exact ⟨m', hm', hkind⟩
      · exact ⟨m, hm, hkind⟩
    obtain ⟨m', hm', hkind'⟩ := hold
    obtain ⟨u', w, hu', hw⟩ := h.marking.known r c marker m' hc hm' hkind'
    obtain rfl := Option.some.inj (hu.symm.trans hu')
    exact ⟨w, hw⟩

/-! ## Moves -/

/-- A move leaves everything together. -/
theorem Move.wellFormed {mark : Option ViewId} (hmove : Move mark s t)
    (h : s.editor.WellFormed) : t.editor.WellFormed := by
  cases hmove with
  | setLocks protocol => exact h
  | setLimits limits => exact wellFormed_edit h fun _ => ⟨rfl, rfl, rfl, rfl, rfl, rfl⟩
  | setInhibit inhibit => exact wellFormed_edit h fun _ => ⟨rfl, rfl, rfl, rfl, rfl, rfl⟩
  | setReadOnly hv readOnly => exact h.replaceView (fun _ => rfl) (fun _ => rfl)
  | setCurrent hv => exact h.setCurrent hv
  | addRoot => exact h.addRoot _
  | addIndirect hv hb => exact h.addIndirect hv hb _
  | removeIndirect hv hb => exact h.removeIndirect hv hb
  | removeRoot hv hb halone hd hc =>
      rw [editor_edit, editor_unlocked]
      exact h.removeRoot hv hb halone _
  | narrow hs hpq hq =>
      apply wellFormed_onDocument h
      intro c hc
      obtain rfl := Option.some.inj (hs.document.symm.trans hc)
      exact (admits_setExtent h hs (Position.le_clamp hpq) (Position.clamp_le hpq) hq).1
  | widen hs =>
      apply wellFormed_onDocument h
      intro c hc
      obtain rfl := Option.some.inj (hs.document.symm.trans hc)
      exact (admits_widen h hs).1
  | goto hs hlow hhigh =>
      apply wellFormed_onDocument h
      intro c hc
      obtain rfl := Option.some.inj (hs.document.symm.trans hc)
      exact (admits_goto h hs hlow hhigh).1
  | change hs hrange hvoid hgrant => exact wellFormed_changed h hs.document hrange
  | refused root path => exact h
  | restore root start stop key value => exact h
  | handler call => exact h
  | log hd hl =>
      apply wellFormed_onDocument h
      intro c hc
      obtain rfl := Option.some.inj (hd.symm.trans hc)
      have ha := h.admits hd
      exact ha.relog (hl.wellFormed ha.log) (hl.suspended_eq.trans ha.takes)
        fun a hmem => ha.noted a (hl.adjusted_subset ha.log a hmem)
  | readjust has => exact wellFormed_onDocument h fun c hc => h.admits_readjustAll (h.admits hc) has
  | setUnmodified hs =>
      rw [editor_unlocked]
      exact wellFormed_aside h fun _ => ⟨rfl, rfl, rfl⟩
  | setFile hs hfile hgrant =>
      rw [editor_unlocked]
      refine wellFormed_aside ?_ fun _ => ⟨rfl, rfl, rfl⟩
      split
      · rw [editor_granted]
        exact h
      · exact h
  | makeMarker => exact h.makeMarker
  | placeMarker hu hs pos => exact wellFormed_placed h hu hs (Nat.min_le_right _ _)
  | detachMarker hu => exact wellFormed_detached h hu
  | setAdvances hu advances => exact wellFormed_advancing h hu advances
  | makeOverlay hs p q front rear =>
      refine wellFormed_edit (wellFormed_aside h ?_) ?_
      · exact fun _ => ⟨rfl, rfl, rfl⟩
      · exact fun _ => ⟨rfl, rfl, rfl, rfl, rfl, rfl⟩
  | setDetached ho p => exact wellFormed_overlaid h _ _
  | setAttached hh hs ho p => exact wellFormed_aside h fun _ => ⟨rfl, rfl, rfl⟩
  | deleteOverlay hh hs ho =>
      refine wellFormed_overlaid (wellFormed_aside h ?_) _ _
      exact fun _ => ⟨rfl, rfl, rfl⟩
  | deleteAllOverlays hs =>
      refine wellFormed_edit (wellFormed_aside h ?_) ?_
      · exact fun _ => ⟨rfl, rfl, rfl⟩
      · exact fun _ => ⟨rfl, rfl, rfl, rfl, rfl, rfl⟩
  | moveDetached ho hs p q =>
      refine wellFormed_overlaid (wellFormed_aside h ?_) _ _
      exact fun _ => ⟨rfl, rfl, rfl⟩
  | moveAttached hh hold ho hs p q =>
      refine wellFormed_overlaid (wellFormed_aside (wellFormed_aside h ?_) ?_) _ _
      · exact fun _ => ⟨rfl, rfl, rfl⟩
      · exact fun _ => ⟨rfl, rfl, rfl⟩

theorem Moves.wellFormed {roots : List ViewId} (hmoves : Moves roots s t)
    (h : s.editor.WellFormed) : t.editor.WellFormed := by
  induction hmoves with
  | refl => exact h
  | step _ hm ih => exact hm.wellFormed (ih h)

theorem Leads.wellFormed (hleads : s.Leads t) (h : s.editor.WellFormed) : t.editor.WellFormed := by
  obtain ⟨roots, -, hmoves⟩ := hleads
  exact hmoves.wellFormed h

end Session

end Editing
