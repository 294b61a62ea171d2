import Editing.Proofs.Session.Lasting

/-!
# Single changes of a text

A text is only ever changed by one change at a time: raw, by an operation through a view, or when an
undo takes a record back. Besides the change itself, nothing moves then but the point of the view
that it goes through, and after an undone deletion the markers of the user.
-/

namespace Editing

theorem Position.ordered_fst (p q : Nat) : (ordered p q).1 = min p q := by
  grind [ordered]

theorem Position.ordered_snd (p q : Nat) : (ordered p q).2 = max p q := by
  grind [ordered]

namespace Session

/-- A session becomes another one by one change of the text of a view: the change is raw, or is made
by an operation, or takes back a record of the log. What is erased has been made accessible. -/
inductive Revises (s : Session) (view : ViewId) : Change → Session → Prop
  | insertRaw {pos n : Nat} {text : Text} {t : Session}
      (h : (Act.insertRaw view pos text).run s = (.ok n, t)) : Revises s view (.insert pos text) t
  | deleteRaw {start stop : Nat} {text : Text} {t : Session}
      (h : (Act.deleteRaw view start stop).run s = (.ok text, t)) :
      Revises s view (.delete start stop) t
  | insert {pos n : Nat} {text : Text} {t : Session} (hpos : s.editor.point view = .ok pos)
      (h : (Act.insert view text).run s = (.ok n, t)) : Revises s view (.insert pos text) t
  | deleteRegion {p q : Nat} {text : Text} {t : Session}
      (h : (Act.deleteRegion view p q).run s = (.ok text, t)) :
      Revises s view (.delete (min p q) (max p q)) t
  | erase {size : Nat} {r t : Session} (hr : (Act.widen view).run r = (.ok (), s))
      (hsize : s.editor.size view = .ok size) (h : (Act.erase view).run r = (.ok (), t)) :
      Revises s view (.delete 0 size) t
  | replay {root : ViewId} {records : List Record} {r : Record} {c : Change} {t : Session}
      (hroot : s.editor.rootOf view = .ok root)
      (hrecords : s.editor.undoRecords view = .ok records) (hr : r ∈ records)
      (hc : r.inverse = some c) (h : (Act.replay view root r).run s = (.ok (), t)) :
      Revises s view c t

/-- A change has been made to the document of a view, and then nothing moved in it but the point of
the view and markers of the user. -/
structure Amended (s : Session) (view : ViewId) (v : View) (root : ViewId) (d : Document)
    (c : Change) (t : Session) (b : Document) : Prop where
  shows : s.editor.Shows view v root d
  range : c.rangeError d.length = none
  views : t.editor.views = s.editor.views
  document : t.editor.documents.get? root = some b
  text : b.text = (d.revised c).text
  overlays : b.overlays = (d.revised c).overlays
  markers : ∀ id, id ≠ v.markers.point → s.editor.userMarkers.get? id = none →
    b.markers.get? id = (d.revised c).markers.get? id

variable {s t : Session} {view root : ViewId} {v : View} {d b : Document} {c : Change}

/-! ## Changes by themselves -/

theorem amended_of_change (hs : s.editor.Shows view v root d)
    (h : (Act.makeChange view c).run s = (.ok (), t)) :
    s.Amended view v root d c t (d.revised c) ∧ t = s.revised root d c := by
  rcases Act.makeChange_cases hs c with ⟨e, he⟩ | ⟨path, reason, he⟩ | ⟨hrange, -, hrun⟩
  · rw [he] at h
    cases h
  · rw [he] at h
    cases h
  · rw [hrun] at h
    cases h
    refine ⟨⟨hs, hrange, views_revised s root d c, (shows_revised hs).document, rfl, rfl, ?_⟩, rfl⟩
    exact fun _ _ _ => rfl

namespace Amended

theorem showing (h : s.Amended view v root d c t b) : t.editor.Shows view v root b where
  live := by rw [h.views, h.shows.live]
  root_eq := h.shows.root_eq
  document := h.document

/-- What is done afterwards only moves the point of the view and markers of the user. -/
theorem onDocument (h : s.Amended view v root d c t b) {f : Document → Document}
    (htext : (f b).text = b.text) (hoverlays : (f b).overlays = b.overlays)
    (hmarkers : ∀ id, id ≠ v.markers.point → s.editor.userMarkers.get? id = none →
      (f b).markers.get? id = b.markers.get? id) :
    s.Amended view v root d c (t.onDocument root f) (f b) where
  shows := h.shows
  range := h.range
  views := h.views
  document := get?_onDocument_self h.document f
  text := htext.trans h.text
  overlays := hoverlays.trans h.overlays
  markers id hpoint huser := (hmarkers id hpoint huser).trans (h.markers id hpoint huser)

theorem setPoint (h : s.Amended view v root d c t b) (pos : Nat) :
    s.Amended view v root d c (t.onDocument root (·.setPosition v.markers.point pos))
      (b.setPosition v.markers.point pos) := by
  apply h.onDocument
  · rfl
  · rfl
  · intro id hpoint _
    exact (Table.get?_modify _ _ _ _).trans (if_neg hpoint)

theorem goto (h : s.Amended view v root d c t b) {pos n : Nat} {u : Session}
    (hgoto : (Act.goto view pos).run t = (.ok n, u)) : ∃ b', s.Amended view v root d c u b' := by
  rw [Act.run_goto h.showing] at hgoto
  cases hgoto
  exact ⟨_, h.setPoint _⟩

theorem readjust (h : s.Amended view v root d c t b) {as : List MarkerAdjustment}
    (has : ∀ a ∈ as, ∃ u, s.editor.userMarkers.get? a.marker = some u) :
    s.Amended view v root d c (t.onDocument root fun d => as.foldl Document.readjust d)
      (as.foldl Document.readjust b) := by
  apply h.onDocument
  · exact Document.text_readjustAll b as
  · exact Document.overlays_readjustAll b as
  · intro id _ huser
    apply Document.get?_readjustAll_of_ne
    intro a ha heq
    obtain ⟨u, hu⟩ := has a ha
    rw [heq, huser] at hu
    cases hu

end Amended

/-! ## Records of the log -/

/-- The records of every log name no markers but those of the user. -/
def Noted (s : Session) : Prop :=
  ∀ root d, s.editor.documents.get? root = some d → ∀ a ∈ Record.adjusted d.log.records,
    ∃ u, s.editor.userMarkers.get? a.marker = some u

theorem noted_of_wellFormed (h : s.editor.WellFormed) : s.Noted := h.logging.noted

/-- The records and the markers of the user stay when a log changes in other respects. -/
theorem Noted.onDocument (h : s.Noted) {f : Document → Document}
    (hf : ∀ d, (f d).log.records = d.log.records) : (s.onDocument root f).Noted := by
  intro r c hc a ha
  rw [get?_onDocument] at hc
  split at hc
  · obtain ⟨d, hd, rfl⟩ := Option.map_eq_some_iff.mp hc
    rw [hf] at ha
    exact h r d hd a ha
  · exact h r c hc a ha

theorem noted_ended (h : s.editor.WellFormed) (root : ViewId) :
    (s.onDocument root Document.ended).Noted := by
  intro r c hc a ha
  rw [get?_onDocument] at hc
  split at hc
  · obtain ⟨d, hd, rfl⟩ := Option.map_eq_some_iff.mp hc
    exact (h.admits hd).ended.noted a ha
  · exact h.logging.noted r c hc a ha

theorem noted_passing : Passing fun s t => s.Noted → t.Noted where
  refl _ := id
  leads hw hleads _ := noted_of_wellFormed (hleads.wellFormed hw)
  begins _ _ h := h.onDocument fun _ => rfl
  ends root hw _ := noted_ended hw root
  halts root _ hw _ := (noted_ended hw root).onDocument fun _ => rfl

/-- At every moment of a run, within an undo too, logs name no markers but those of the user. -/
theorem run_noted (limits : Limits) (locks : Option LockProtocol) (steps : List Step) :
    ∀ t ∈ fresh limits locks :: runMoments steps (fresh limits locks), t.Noted := by
  have hrest := fresh_atRest limits locks
  have hpairs := (noted_passing.run steps _ hrest).pairwise fun h h' => h' ∘ h
  intro t ht
  rcases List.mem_cons.mp ht with rfl | ht
  · exact noted_of_wellFormed hrest.wellFormed
  · exact (List.pairwise_cons.mp hpairs).1 t ht (noted_of_wellFormed hrest.wellFormed)

/-- At every moment of a run views and documents fit together. -/
theorem moment_settled {limits : Limits} {locks : Option LockProtocol} {steps : List Step}
    (ht : t ∈ fresh limits locks :: runMoments steps (fresh limits locks)) : t.Settled := by
  have hrest := fresh_atRest limits locks
  exact settled_lasting.moments steps _ hrest
    ⟨hrest.wellFormed.registry, hrest.wellFormed.marking⟩ t ht

/-! ## Changes with what comes after them -/

theorem amended_of_deleteRaw (hs : s.editor.Shows view v root d) {start stop : Nat} {text : Text}
    (h : (Act.deleteRaw view start stop).run s = (.ok text, t)) :
    ∃ b, s.Amended view v root d (.delete start stop) t b := by
  obtain ⟨_, _, h⟩ := Act.exists_of_ask_bind h
  obtain ⟨_, u, hchange, h⟩ := Act.exists_of_bind h
  cases h
  exact ⟨_, (amended_of_change hs hchange).1⟩

theorem amended_of_insert (hs : s.editor.Shows view v root d) {text : Text} {n pos : Nat}
    (hpos : s.editor.point view = .ok pos) (h : (Act.insert view text).run s = (.ok n, t)) :
    ∃ b, s.Amended view v root d (.insert pos text) t b := by
  obtain ⟨w, hw, h⟩ := Act.exists_of_ask_bind h
  obtain rfl : v = w := Except.ok.inj (hs.view_eq.symm.trans hw)
  obtain ⟨p, hp, h⟩ := Act.exists_of_ask_bind h
  obtain rfl : pos = p := Except.ok.inj (hpos.symm.trans hp)
  obtain ⟨_, r, hat, h⟩ := Act.exists_of_bind h
  obtain ⟨_, _, hchange⟩ := Act.exists_of_ask_bind hat
  obtain ⟨hamended, rfl⟩ := amended_of_change hs hchange
  obtain ⟨_, u, hset, h⟩ := Act.exists_of_bind h
  rw [Act.run_changeShown hamended.showing] at hset
  cases hset
  cases h
  exact ⟨_, hamended.setPoint _⟩

theorem amended_of_replay (hs : s.editor.Shows view v root d) (hsettled : s.Settled)
    (hnoted : s.Noted) {r : Record} (hr : r ∈ d.log.records) (hc : r.inverse = some c)
    (h : (Act.replay view root r).run s = (.ok (), t)) : ∃ b, s.Amended view v root d c t b := by
  cases r with
  | insert pos n =>
      cases hc
      obtain ⟨_, _, h⟩ := Act.exists_of_ask_bind h
      obtain ⟨_, u, hchange, h⟩ := Act.exists_of_bind h
      obtain ⟨hamended, rfl⟩ := amended_of_change hs hchange
      obtain ⟨p, u, hgoto, h⟩ := Act.exists_of_bind h
      cases h
      exact hamended.goto hgoto
  | delete pos text as =>
      cases hc
      obtain ⟨w, hw, -⟩ := hsettled.1.shows_root hs.document
      obtain ⟨_, _, h⟩ := Act.exists_of_ask_bind h
      obtain ⟨d', hd', h⟩ := Act.exists_of_ask_bind h
      obtain rfl : d = d' := Except.ok.inj (hw.document_eq.symm.trans hd')
      obtain ⟨_, u, hat, h⟩ := Act.exists_of_bind h
      obtain ⟨_, _, hchange⟩ := Act.exists_of_ask_bind hat
      obtain ⟨hamended, rfl⟩ := amended_of_change hs hchange
      obtain ⟨_, u, hset, h⟩ := Act.exists_of_bind h
      rw [Act.run_changeShown (shows_revised hw)] at hset
      cases hset
      obtain ⟨p, u, hgoto, h⟩ := Act.exists_of_bind h
      cases h
      refine (hamended.readjust fun a ha => ?_).goto hgoto
      have hmem := (List.mem_filter.mp ha).1
      exact hnoted root d hs.document a (Record.adjusted_subset_of_mem hr a hmem)
  | property start stop key value => cases hc
  | boundary => cases hc

/-- Whatever way a text is changed, the change is made, and nothing else is done to what its views
and overlays cover but that the point of one view is moved. -/
theorem Revises.amended (h : s.Revises view c t) (hsettled : s.Settled) (hnoted : s.Noted)
    (hs : s.editor.Shows view v root d) : ∃ b, s.Amended view v root d c t b := by
  cases h with
  | insertRaw h =>
      obtain ⟨_, u, hchange, h⟩ := Act.exists_of_bind h
      cases h
      exact ⟨_, (amended_of_change hs hchange).1⟩
  | deleteRaw h => exact amended_of_deleteRaw hs h
  | insert hpos h => exact amended_of_insert hs hpos h
  | @deleteRegion p q text _ h =>
      rw [Act.run_deleteRegion hs] at h
      split at h
      · cases h
      · rw [← Position.ordered_fst, ← Position.ordered_snd]
        exact amended_of_deleteRaw hs h
  | erase hr hsize h =>
      obtain ⟨_, _, h⟩ := Act.exists_of_ask_bind h
      obtain ⟨_, u, hwiden, h⟩ := Act.exists_of_bind h
      obtain rfl : s = u := congrArg Prod.snd (hr.symm.trans hwiden)
      obtain ⟨n, hn, h⟩ := Act.exists_of_ask_bind h
      obtain rfl := Except.ok.inj (hsize.symm.trans hn)
      obtain ⟨_, u, hdelete, h⟩ := Act.exists_of_bind h
      cases h
      exact amended_of_deleteRaw hs hdelete
  | replay hroot hrecords hr hc h =>
      obtain rfl := Except.ok.inj (hs.rootOf_eq.symm.trans hroot)
      obtain rfl := Except.ok.inj (hs.undoRecords_eq.symm.trans hrecords)
      exact amended_of_replay hs hsettled hnoted hr hc h

/-! ## Views after a change -/

theorem Amended.shows_other (h : s.Amended view v root d c t b) {w : ViewId} {vw : View}
    (hw : s.editor.Shows w vw root d) : t.editor.Shows w vw root b where
  live := by rw [h.views, hw.live]
  root_eq := hw.root_eq
  document := h.document

namespace Amended

variable {w : ViewId} {vw : View}

theorem length_eq (h : s.Amended view v root d c t b) : b.length = (d.revised c).length :=
  congrArg List.length h.text

/-- The bounds of all views are where the change has left them. -/
theorem bounds (h : s.Amended view v root d c t b) (hm : s.editor.Marking)
    (hw : s.editor.views.get? w = some vw) :
    b.markers.get? vw.markers.low = (d.revised c).markers.get? vw.markers.low ∧
      b.markers.get? vw.markers.high = (d.revised c).markers.get? vw.markers.high := by
  have hforeign : ∀ id, (¬vw.markers.Outside id) → s.editor.userMarkers.get? id = none := by
    intro id hid
    rw [Option.eq_none_iff_forall_ne_some]
    exact fun u hu => hid (hm.foreign id u w vw hu hw)
  have hother : vw.markers.low ≠ v.markers.point ∧ vw.markers.high ≠ v.markers.point := by
    by_cases hne : w = view
    · subst hne
      obtain rfl := Option.some.inj (hw.symm.trans h.shows.live)
      have hdistinct := hm.distinct w vw hw
      exact ⟨hdistinct.low_ne, hdistinct.high_ne⟩
    · have hapart := hm.apart view v w vw h.shows.live hw (Ne.symm hne)
      exact ⟨hapart.low.point, hapart.high.point⟩
  constructor
  · exact h.markers _ hother.1 (hforeign _ fun hout => hout.low rfl)
  · exact h.markers _ hother.2 (hforeign _ fun hout => hout.high rfl)

theorem low_eq (h : s.Amended view v root d c t b) (hm : s.editor.Marking)
    (hw : s.editor.views.get? w = some vw) :
    (b.extent vw.markers).low = ((d.revised c).extent vw.markers).low := by
  simp only [Document.extent, Markers.position?, (h.bounds hm hw).1, h.length_eq]

theorem high_eq (h : s.Amended view v root d c t b) (hm : s.editor.Marking)
    (hw : s.editor.views.get? w = some vw) :
    (b.extent vw.markers).high = ((d.revised c).extent vw.markers).high := by
  simp only [Document.extent, Markers.position?, (h.bounds hm hw).1, (h.bounds hm hw).2,
    h.length_eq]

/-- The points of all other views are where the change has left them. -/
theorem point_stays (h : s.Amended view v root d c t b) (hm : s.editor.Marking)
    (hw : s.editor.views.get? w = some vw) (hne : w ≠ view) :
    b.markers.get? vw.markers.point = (d.revised c).markers.get? vw.markers.point := by
  have hapart := hm.apart view v w vw h.shows.live hw (Ne.symm hne)
  apply h.markers _ hapart.point.point
  rw [Option.eq_none_iff_forall_ne_some]
  exact fun u hu => (hm.foreign _ u w vw hu hw).point rfl

theorem extent_eq (h : s.Amended view v root d c t b) (hm : s.editor.Marking)
    (hw : s.editor.views.get? w = some vw) (hne : w ≠ view) :
    b.extent vw.markers = (d.revised c).extent vw.markers :=
  Document.extent_congr (h.point_stays hm hw hne) (h.bounds hm hw).1 (h.bounds hm hw).2 h.length_eq

end Amended

end Session

end Editing
