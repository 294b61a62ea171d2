import Editing.Proofs.Session.Restoring

/-!
# Text and markers come back

One undo takes back all edits since the newest group was closed, through whichever views they were
made. It puts back the text and every marker of the user.
-/

namespace Editing

theorem Record.close_closed (rs : List Record) : close rs = [] ∨
    ∃ ss, close rs = .boundary :: ss := by
  cases rs with
  | nil => exact Or.inl rfl
  | cons r rs =>
      cases r with
      | boundary => exact Or.inr ⟨rs, rfl⟩
      | insert _ _ => exact Or.inr ⟨_, rfl⟩
      | delete _ _ _ => exact Or.inr ⟨_, rfl⟩
      | property _ _ _ _ => exact Or.inr ⟨_, rfl⟩

namespace Document

variable {d c : Document} {news : List Record}

theorem isClosed_boundary (h : d.log.WellFormed) (ha : d.log.acceptsRecords = true) :
    IsClosed { d with log := d.log.boundary } := by
  have hrecords := h.records_boundary
  rw [ha, if_pos rfl] at hrecords
  rw [IsClosed, hrecords]
  exact Record.close_closed d.log.records

/-- The records since a document was closed are the first group that remains. -/
theorem Since.groups_remaining (h : d.Since c news) (hd : d.IsClosed) (hne : news ≠ []) :
    Record.groups c.log.remaining = news :: Record.groups d.log.records := by
  rw [UndoLog.remaining_idle (h.cursor hne), h.trail.records]
  exact Record.groups_append h.trail.unclosed hne hd

/-- An undo of the group since then puts text and seats back. -/
theorem Since.undone (h : d.Since c news) {point : MarkerId} (hp : c.seat point = none) :
    (c.undone point news).text = d.text ∧ ∀ id, (c.undone point news).seat id = d.seat id := by
  refine ⟨(text_undone c point news).trans h.trail.text, fun id => ?_⟩
  rw [← h.seat id]
  exact seat_replayedAll (d := c.begun) hp news id

end Document

theorem Editor.Shows.markerPosition_eq {e : Editor} {marker : MarkerId} {u : UserMarker}
    {home : MarkerHome} {v : View} {d : Document} (hu : e.userMarkers.get? marker = some u)
    (hhome : u.home = some home) (h : e.Shows home.root v home.root d) :
    e.markerPosition marker = .ok (Markers.position? d.markers marker) := by
  rw [Editor.markerPosition, Editor.userMarker, hu]
  simp only [bind, Except.bind, hhome, h.document_eq]
  rfl

/-- The view in which a marker was set shows the text that the marker is in. -/
theorem Editor.WellFormed.home_of_markerView {e : Editor} (h : e.WellFormed) {marker : MarkerId}
    {home root : ViewId} (hview : e.markerView marker = .ok (some home))
    (hroot : e.rootOf home = .ok root) :
    ∃ u, e.userMarkers.get? marker = some u ∧ u.home = some ⟨home, root⟩ := by
  rw [Editor.markerView, Editor.userMarker] at hview
  cases hu : e.userMarkers.get? marker with
  | none =>
      rw [hu] at hview
      cases hview
  | some u =>
      rw [hu] at hview
      obtain ⟨place, hplace, rfl⟩ := Option.map_eq_some_iff.mp (Except.ok.inj hview)
      obtain ⟨v, d, hs, -⟩ := h.marking.homed marker u place hu hplace
      rw [hs.rootOf_eq] at hroot
      cases hroot
      exact ⟨u, rfl, hplace⟩

theorem Editor.WellFormed.seat_of_home {e : Editor} (h : e.WellFormed) {marker : MarkerId}
    {u : UserMarker} {home : MarkerHome} (hu : e.userMarkers.get? marker = some u)
    (hhome : u.home = some home) {d : Document} (hd : e.documents.get? home.root = some d) :
    ∃ m, d.seat marker = some m := by
  obtain ⟨v, c, hs, p, hp, -⟩ := h.marking.homed marker u home hu hhome
  obtain rfl := Option.some.inj (hs.document.symm.trans hd)
  exact ⟨_, Document.seat_eq_some.mpr ⟨hp, rfl⟩⟩

theorem Document.position?_of_seat {d : Document} {id : MarkerId} {m : Marker}
    (h : d.seat id = some m) : Markers.position? d.markers id = some m.position := by
  rw [Markers.position?, (seat_eq_some.mp h).1]
  rfl

namespace Session

variable {s : Session} {shown view root : ViewId} {ops : List Op}

/-- The edits since a group was closed lead to a document with a group of records that lead back. -/
theorem AtRest.since_closed (h : s.AtRest) {d : Document}
    (hd : s.editor.documents.get? root = some d)
    (ha : d.log.acceptsRecords = true) (hops : ∀ o ∈ ops, o.isEdit = true) (hclosed : d.IsClosed)
    (hchanged : ∃ earlier o later, ops = earlier ++ o :: later ∧
      ((s.afterAll earlier).after o).editor.fullText root ≠
      (s.afterAll earlier).editor.fullText root) :
    ∃ c news, (s.afterAll ops).editor.documents.get? root = some c ∧ d.Since c news ∧
    news ≠ [] := by
  obtain ⟨earlier, o, later, rfl, hchanged⟩ := hchanged
  have hearlier := h.edits_afterAll fun q hq => hops q (List.mem_append_left _ hq)
  have hbetween := h.afterAll earlier
  have hstep :=
      edits_after hbetween.wellFormed (hops o (List.mem_append_right _ List.mem_cons_self))
  have hedits : ∀ q ∈ later, q.isEdit = true := fun q hq =>
    hops q (List.mem_append_right _ (List.mem_cons_of_mem o hq))
  have hlater := (hbetween.after o).edits_afterAll hedits
  have hrun :
      s.afterAll (earlier ++ o :: later) = ((s.afterAll earlier).after o).afterAll later := by
    rw [Session.afterAll, List.foldl_append]
    rfl
  obtain ⟨a, ha', hda⟩ := hearlier.documents root d hd
  obtain ⟨b, hb, hab⟩ := hstep.documents root a ha'
  obtain ⟨c, hc, hbc⟩ := hlater.documents root b hb
  have hwf := (h.wellFormed.admits hd).log
  obtain ⟨first, hfirst, -, -⟩ :=
    Document.Since.edited hda (.refl hwf ha (h.idle root d hd)) hclosed
  obtain ⟨second, hsecond, -, hne⟩ := Document.Since.edited hab hfirst hclosed
  obtain ⟨third, hthird, hkeep, -⟩ := Document.Since.edited hbc hsecond hclosed
  refine ⟨c, third, hrun ▸ hc, hthird, hkeep (hne fun htext => hchanged ?_)⟩
  obtain ⟨v, hv, -⟩ := hbetween.wellFormed.registry.shows_root ha'
  obtain ⟨w, hw, -⟩ := (hbetween.after o).wellFormed.registry.shows_root hb
  rw [hv.fullText_eq, hw.fullText_eq, htext]

/-- Edits of a text since its newest group was closed, through any of its views and mixed with
moving about in them, are taken back by one undo through a view of the whole text: the text and the
position of every marker of the user are what they were before. -/
theorem undo_restores_text_and_markers (h : s.Reachable) (hroot : s.editor.rootOf shown = .ok root)
    (hundo : s.editor.undoEnabled shown = .ok true) (hops : ∀ o ∈ ops, o.isEdit = true)
    (hchanged : ∃ earlier o later, ops = earlier ++ o :: later ∧
      (((s.after (.closeGroup shown)).afterAll earlier).after o).editor.fullText root ≠
        ((s.after (.closeGroup shown)).afterAll earlier).editor.fullText root)
    (hview : ((s.after (.closeGroup shown)).afterAll ops).editor.rootOf view = .ok root)
    (hwide : ((s.after (.closeGroup shown)).afterAll ops).editor.isNarrowed view = .ok false)
    (hgranted : ∀ path, .lockRefused root path ∉
      ((s.after (.closeGroup shown)).afterAll ops).callsUntil
        (((s.after (.closeGroup shown)).afterAll ops).after (.undo view))) :
    let before := s.after (.closeGroup shown)
    let edited := before.afterAll ops
    let restored := edited.after (.undo view)
    ((Op.undo view).act.run edited).1 = .ok .done ∧
      restored.editor.fullText root = before.editor.fullText root ∧
      ∀ marker home, before.editor.markerView marker = .ok (some home) →
        before.editor.rootOf home = .ok root →
          restored.editor.markerPosition marker = before.editor.markerPosition marker := by
  intro before edited restored
  have hrest := h.atRest
  have hbefore : before.AtRest := hrest.after _
  have hreachable : edited.Reachable := (h.after _).afterAll ops
  obtain ⟨v, d, hs⟩ := hrest.wellFormed.registry.shows_of_rootOf hroot
  rw [hs.undoEnabled_eq] at hundo
  have hadmits := hrest.wellFormed.admits hs.document
  have haccepts := hrest.accepts hs.document (Except.ok.inj hundo)
  -- The document right after its newest group has been closed.
  have hclosed := Document.isClosed_boundary hadmits.log haccepts
  have hdocument : before.editor.documents.get? root = some { d with log := d.log.boundary } := by
    change (s.after (.closeGroup shown)).editor.documents.get? root = _
    rw [after_closeGroup hs, get?_onDocument_self hs.document]
  have haccepts' : d.log.boundary.acceptsRecords = true :=
    hbefore.accepts hdocument ((UndoLog.isEnabled_boundary d.log).trans (Except.ok.inj hundo))
  obtain ⟨c, news, hc, hsince, hne⟩ :=
    hbefore.since_closed hdocument haccepts' hops hclosed hchanged
  have hedits := hbefore.edits_afterAll hops
  -- The edited document, seen from the view that the undo goes through.
  obtain ⟨w, c', hw⟩ := hreachable.atRest.wellFormed.registry.shows_of_rootOf hview
  obtain rfl := Option.some.inj (hc.symm.trans hw.document)
  have hcursor : edited.editor.undoCursor view = .ok .idle := by
    rw [hw.undoCursor_eq, hsince.cursor hne]
  have henabled : edited.editor.undoEnabled view = .ok true := by
    rw [hw.undoEnabled_eq, UndoLog.isEnabled_of_accepts hsince.trail.accepts]
  obtain ⟨w', c', hpoised, -, -⟩ := hreachable.poised hw.rootOf_eq hw.fullText_eq hw.undoRecords_eq
    henabled hwide hcursor
  obtain ⟨rfl, -, rfl⟩ := hw.unique hpoised.shows
  have hseats := hreachable.atRest.wellFormed.marking.seated view w root c hw
  obtain ⟨hrun, -, hundone, -, huser⟩ :=
    hpoised.undo_group (hsince.groups_remaining hclosed hne) hgranted
  obtain ⟨htext, hseat⟩ := hsince.undone hseats.seat_point
  obtain ⟨x, hx, -⟩ := hundone.atRest.wellFormed.registry.shows_root hundone.shows.document
  obtain ⟨y, hy, -⟩ := hbefore.wellFormed.registry.shows_root hdocument
  refine ⟨Act.run_quietly_ok_iff.mpr hrun, ?_, ?_⟩
  · rw [hx.fullText_eq, hy.fullText_eq, htext]
  · intro marker home hmarker hhome
    obtain ⟨u, hu, huhome⟩ := hbefore.wellFormed.home_of_markerView hmarker hhome
    have hu' : restored.editor.userMarkers.get? marker = some u := by
      rw [huser, hedits.userMarkers]
      exact hu
    obtain ⟨m, hm⟩ := hbefore.wellFormed.seat_of_home hu huhome hdocument
    have hposition := Document.position?_of_seat hm
    have hposition' := Document.position?_of_seat ((hseat marker).trans hm)
    rw [Editor.Shows.markerPosition_eq hu' huhome hx, Editor.Shows.markerPosition_eq hu huhome hy,
      hposition, hposition']

/-- A text with a marker of either insertion type inside the range that is deleted next. -/
def twoMarkers : List Op :=
  [.createRoot "v", .insert 0 "abcdef".toList, .makeMarker, .placeMarker 3 0 2, .copyMarker 3 true]

/-- A deletion over both markers and an insertion where it was, in a narrowed view. -/
def collapse : List Op :=
  [.deleteRegion 0 1 5, .narrow 0 1 2, .insertRaw 0 1 "xy".toList, .widen 0]

theorem twoMarkers_restored :
    let s := (fresh .default none).afterAll twoMarkers
    let before := s.after (.closeGroup 0)
    let edited := before.afterAll collapse
    let restored := edited.after (.undo 0)
    s.Reachable ∧ s.editor.rootOf 0 = .ok 0 ∧ s.editor.undoEnabled 0 = .ok true ∧
      (∀ o ∈ collapse, o.isEdit = true) ∧
      (∃ earlier o later, collapse = earlier ++ o :: later ∧
        ((before.afterAll earlier).after o).editor.fullText 0 ≠
          (before.afterAll earlier).editor.fullText 0) ∧
      edited.editor.rootOf 0 = .ok 0 ∧ edited.editor.isNarrowed 0 = .ok false ∧
      (∀ path, .lockRefused 0 path ∉ edited.callsUntil restored) ∧
      edited.editor.markerPosition 4 = .ok (some 3) ∧
      ((Op.undo 0).act.run edited).1 = .ok .done ∧
      restored.editor.fullText 0 = before.editor.fullText 0 ∧
      restored.editor.markerPosition 4 = .ok (some 2) := by
  intro s before edited restored
  have hreachable : s.Reachable := (Reachable.fresh .default none).afterAll twoMarkers
  have hroot : s.editor.rootOf 0 = .ok 0 := by decide +kernel
  have hundo : s.editor.undoEnabled 0 = .ok true := by decide +kernel
  have hops : ∀ o ∈ collapse, o.isEdit = true := by
    intro o ho
    simp only [collapse, List.mem_cons, List.not_mem_nil, or_false] at ho
    rcases ho with rfl | rfl | rfl | rfl <;> rfl
  have hchanged : ∃ earlier o later, collapse = earlier ++ o :: later ∧
      ((before.afterAll earlier).after o).editor.fullText 0 ≠
        (before.afterAll earlier).editor.fullText 0 :=
    ⟨[], .deleteRegion 0 1 5, _, rfl, by decide +kernel⟩
  have hview : edited.editor.rootOf 0 = .ok 0 := by decide +kernel
  have hwide : edited.editor.isNarrowed 0 = .ok false := by decide +kernel
  have hsilent : (edited.callsUntil restored).isEmpty = true := by decide +kernel
  have hgranted : ∀ path, .lockRefused 0 path ∉ edited.callsUntil restored := by
    intro path hmem
    rw [List.isEmpty_iff.mp hsilent] at hmem
    cases hmem
  have hmoved : edited.editor.markerPosition 4 = .ok (some 3) := by decide +kernel
  have hplaced : before.editor.markerPosition 4 = .ok (some 2) := by decide +kernel
  obtain ⟨hrun, htext, hmarkers⟩ :=
    undo_restores_text_and_markers hreachable hroot hundo hops hchanged hview hwide hgranted
  exact ⟨hreachable, hroot, hundo, hops, hchanged, hview, hwide, hgranted, hmoved, hrun, htext,
    (hmarkers 4 0 (by decide +kernel) (by decide +kernel)).trans hplaced⟩

end Session

end Editing
