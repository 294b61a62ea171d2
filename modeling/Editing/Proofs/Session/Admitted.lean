import Editing.Proofs.History.Cutting
import Editing.Proofs.Session.Registry

/-!
# Documents in place of others

What an editor asks of a document at a root. A document that changes stays admitted when its
markers move together, when a view moves its own markers within the text, or when its log loses old
records and takes new ones that name markers of the user.
-/

namespace Editing

namespace Editor

variable {e : Editor} {root : ViewId} {c d : Document}

/-- A document that may lie at a root, with the views and the user's markers as they are. -/
structure Admits (e : Editor) (root : ViewId) (d : Document) : Prop where
  seats : ∀ view v, e.views.get? view = some v → v.base.getD view = root → d.Seats v.markers
  keeps : ∀ marker u view, e.userMarkers.get? marker = some u → u.home = some ⟨view, root⟩ →
    d.Keeps marker u.advances
  known : ∀ marker m, d.markers.get? marker = some m → m.kind = .user →
    ∃ u view, e.userMarkers.get? marker = some u ∧ u.home = some ⟨view, root⟩
  log : d.log.WellFormed
  takes : d.log.suspended = false
  noted : ∀ a ∈ Record.adjusted d.log.records, ∃ u, e.userMarkers.get? a.marker = some u

theorem WellFormed.admits (h : e.WellFormed) (hd : e.documents.get? root = some d) :
    e.Admits root d where
  seats view v hv hroot := h.marking.seated view v root d ⟨hv, hroot, hd⟩
  keeps marker u view hu hhome := by
    obtain ⟨v, c, hc, hkeeps⟩ := h.marking.homed marker u ⟨view, root⟩ hu hhome
    obtain rfl := Option.some.inj (hc.document.symm.trans hd)
    exact hkeeps
  known marker m hm hkind := h.marking.known root d marker m hd hm hkind
  log := (h.logging.log root d hd).1
  takes := (h.logging.log root d hd).2
  noted := h.logging.noted root d hd

/-- An editor fits together as soon as its views do, its markers are numbered apart, and every
document is admitted. -/
theorem wellFormed_of_admits (hr : e.Registry)
    (hdistinct : ∀ view v, e.views.get? view = some v → v.markers.Distinct e.nextMarker)
    (hapart : ∀ view v view' v', e.views.get? view = some v → e.views.get? view' = some v' →
      view ≠ view' → v.markers.Apart v'.markers)
    (hforeign : ∀ marker u view v, e.userMarkers.get? marker = some u →
      e.views.get? view = some v → v.markers.Outside marker)
    (hnumbered : ∀ marker u, e.userMarkers.get? marker = some u → marker < e.nextMarker)
    (hhome : ∀ marker u home, e.userMarkers.get? marker = some u → u.home = some home →
      ∃ v, e.views.get? home.view = some v ∧ v.base.getD home.view = home.root)
    (hd : ∀ root d, e.documents.get? root = some d → e.Admits root d) : e.WellFormed where
  registry := hr
  marking :=
    { distinct := hdistinct
      apart := hapart
      foreign := hforeign
      numbered := hnumbered
      seated := fun view v root d h => (hd root d h.document).seats view v h.live h.root_eq
      homed := by
        intro marker u home hu hh
        obtain ⟨v, hv, hroot⟩ := hhome marker u home hu hh
        obtain ⟨root, d, hshows⟩ := hr.shows_of_live hv
        obtain rfl := hroot.symm.trans hshows.root_eq
        exact ⟨v, d, hshows, (hd _ d hshows.document).keeps marker u home.view hu hh⟩
      known := fun root d marker m h hm hkind => (hd root d h).known marker m hm hkind }
  logging :=
    { log := fun root d h => ⟨(hd root d h).log, (hd root d h).takes⟩
      noted := fun root d h => (hd root d h).noted }

/-- What an editor holds fits together by its views, documents and markers alone. -/
theorem WellFormed.congr {e' : Editor} (h : e.WellFormed) (hviews : e'.views = e.views)
    (hdocuments : e'.documents = e.documents) (hnextView : e'.nextView = e.nextView)
    (hcurrent : e'.current = e.current) (hnextMarker : e'.nextMarker = e.nextMarker)
    (huserMarkers : e'.userMarkers = e.userMarkers) : e'.WellFormed := by
  cases e
  cases e'
  subst hviews hdocuments hnextView hcurrent hnextMarker huserMarkers
  obtain ⟨hr, hm, hl⟩ := h
  refine ⟨⟨hr.owned, hr.owner, hr.based, hr.numbered, hr.current_live, hr.current_none⟩,
    ⟨hm.distinct, hm.apart, hm.foreign, hm.numbered, ?_, ?_, hm.known⟩, ⟨hl.log, hl.noted⟩⟩
  · exact fun view v root d hs => hm.seated view v root d ⟨hs.live, hs.root_eq, hs.document⟩
  · intro marker u home hu hhome
    obtain ⟨v, d, hs, hkeeps⟩ := hm.homed marker u home hu hhome
    exact ⟨v, d, ⟨hs.live, hs.root_eq, hs.document⟩, hkeeps⟩

namespace Admits

theorem congr (h : e.Admits root d) (hmarkers : c.markers = d.markers)
    (hlength : c.length = d.length) (hlog : c.log = d.log) : e.Admits root c where
  seats view v hv hroot := (h.seats view v hv hroot).congr (by rw [hmarkers]) (by rw [hmarkers])
    (by rw [hmarkers]) hlength
  keeps marker u view hu hhome := by
    obtain ⟨p, hp, hle⟩ := h.keeps marker u view hu hhome
    exact ⟨p, by rw [hmarkers, hp], by rw [hlength]; exact hle⟩
  known marker m hm := h.known marker m (hmarkers ▸ hm)
  log := hlog ▸ h.log
  takes := hlog ▸ h.takes
  noted := hlog ▸ h.noted

theorem relog (h : e.Admits root d) {l : UndoLog} (hl : l.WellFormed) (hs : l.suspended = false)
    (hn : ∀ a ∈ Record.adjusted l.records, ∃ u, e.userMarkers.get? a.marker = some u) :
    e.Admits root { d with log := l } where
  seats view v hv hroot := (h.seats view v hv hroot).congr rfl rfl rfl rfl
  keeps := h.keeps
  known := h.known
  log := hl
  takes := hs
  noted := hn

end Admits

end Editor

namespace Document

variable {c d : Document} {ids : ViewMarkers}

/-- The markers of a document have moved in order, and stayed within the text. -/
structure Shifted (d c : Document) (φ : Bool → Nat → Nat) : Prop where
  get?_eq : ∀ id, c.markers.get? id =
    (d.markers.get? id).map fun m => { m with position := φ m.advances m.position }
  mono : ∀ advances p q, p ≤ q → φ false p ≤ φ advances q
  bound : ∀ advances p, p ≤ d.length → φ advances p ≤ c.length

namespace Shifted

variable {φ : Bool → Nat → Nat}

theorem seats_extent (h : d.Shifted c φ) (hs : d.Seats ids) :
    c.Seats ids ∧ c.extent ids = ⟨φ false (d.extent ids).point, φ false (d.extent ids).low,
      φ true (d.extent ids).high⟩ := by
  refine seats_of_markers (x := ⟨φ false (d.extent ids).point, φ false (d.extent ids).low,
    φ true (d.extent ids).high⟩) ?_ ?_ ?_ ?_ ?_ ?_
  · rw [h.get?_eq, hs.point, Option.map_some]
  · rw [h.get?_eq, hs.low, Option.map_some]
  · rw [h.get?_eq, hs.high, Option.map_some]
  · exact h.mono false _ _ hs.low_le
  · exact h.mono true _ _ hs.le_high
  · exact h.bound true _ hs.high_le

theorem seats (h : d.Shifted c φ) (hs : d.Seats ids) : c.Seats ids := (h.seats_extent hs).1

theorem extent_eq (h : d.Shifted c φ) (hs : d.Seats ids) :
    c.extent ids = ⟨φ false (d.extent ids).point, φ false (d.extent ids).low,
      φ true (d.extent ids).high⟩ :=
  (h.seats_extent hs).2

theorem keeps (h : d.Shifted c φ) {marker : MarkerId} {advances : Bool}
    (hk : d.Keeps marker advances) : c.Keeps marker advances := by
  obtain ⟨p, hp, hle⟩ := hk
  exact ⟨φ advances p, by rw [h.get?_eq, hp, Option.map_some], h.bound advances p hle⟩

theorem known (h : d.Shifted c φ) {marker : MarkerId} {m : Marker}
    (hm : c.markers.get? marker = some m) (hkind : m.kind = .user) :
    ∃ m', d.markers.get? marker = some m' ∧ m'.kind = .user := by
  rw [h.get?_eq] at hm
  obtain ⟨m', hm', rfl⟩ := Option.map_eq_some_iff.mp hm
  exact ⟨m', hm', hkind⟩

end Shifted

theorem shifted_insert (d : Document) (pos : Nat) (s : Text) :
    d.Shifted (d.insert pos s) fun advances => Position.afterInsert advances pos s.length where
  get?_eq id := Table.get?_map _ _ _
  mono advances p q hpq := by
    unfold Position.afterInsert
    simp only [Bool.false_eq_true, and_false, or_false]
    repeat' split
    all_goals omega
  bound advances p hp := by
    change _ ≤ (d.text.insert pos s).length
    rw [Text.length_insert]
    exact Position.afterInsert_le hp

theorem shifted_delete (d : Document) {start stop : Nat} (hs : start ≤ stop)
    (hstop : stop ≤ d.length) :
    d.Shifted (d.delete start stop) fun _ => Position.afterDelete start stop where
  get?_eq id := Table.get?_map _ _ _
  mono _ p q hpq := Position.afterDelete_mono hs hpq
  bound _ p hp := by
    change _ ≤ (d.text.remove start stop).length
    rw [Text.length_remove, Text.length_slice,
      Nat.min_eq_left (show stop ≤ d.text.length from hstop)]
    exact Position.afterDelete_le hs hstop hp

theorem shifted_noteProperty (d : Document) (start stop : Nat) (key : String) (value : Value) :
    d.Shifted (d.noteProperty start stop key value) fun _ p => p where
  get?_eq id := by
    change d.markers.get? id = _
    cases d.markers.get? id <;> rfl
  mono _ p q hpq := hpq
  bound _ p hp := hp

/-- Only markers in the range that move are noted with a deletion, and these are the user's. -/
theorem exists_of_mem_adjustments {start stop : Nat} {a : MarkerAdjustment}
    (ha : a ∈ Markers.adjustments d.markers start stop) :
    ∃ m, d.markers.get? a.marker = some m ∧
      (m.kind = .user ∧ start ≤ m.position ∧ m.position ≤ stop ∧ m.displacement start stop ≠ 0) ∧
      a = ⟨a.marker, m.displacement start stop⟩ := by
  obtain ⟨⟨id, m⟩, hm, ha⟩ := List.mem_filterMap.mp ha
  simp only at ha
  split at ha
  · rename_i hnoted
    cases ha
    exact ⟨m, Table.mem_entries.mp hm, hnoted, rfl⟩
  · cases ha

end Document

/-! ## Changes -/

theorem Change.insert_le {pos : Nat} {s : Text} {n : Nat}
    (h : (Change.insert pos s).rangeError n = none) : pos ≤ n := by
  simp only [Change.rangeError] at h
  split at h
  · cases h
  · omega

theorem Change.delete_le {start stop n : Nat} (h : (Change.delete start stop).rangeError n = none) :
    start ≤ stop ∧ stop ≤ n := by
  simp only [Change.rangeError] at h
  split at h
  · cases h
  · omega

theorem Change.property_le {start stop n : Nat} {key : String} {value : Value}
    (h : (Change.property start stop key value).rangeError n = none) : start ≤ stop ∧ stop ≤ n := by
  simp only [Change.rangeError] at h
  split at h
  · cases h
  · omega

theorem Record.adjusted_addInsert (pos length : Nat) (rs : List Record) :
    adjusted (addInsert pos length rs) = adjusted rs := by
  cases rs with
  | nil => rfl
  | cons r rs =>
      cases r with
      | insert start n =>
          simp only [addInsert]
          split <;> rfl
      | delete _ _ _ => rfl
      | property _ _ _ _ => rfl
      | boundary => rfl

theorem Record.adjusted_close (rs : List Record) : adjusted (close rs) = adjusted rs := by
  cases rs with
  | nil => rfl
  | cons r rs => cases r <;> rfl

theorem Record.adjusted_take (k : Nat) (rs : List Record) :
    ∀ a ∈ adjusted (rs.take k), a ∈ adjusted rs := by
  intro a ha
  rw [← List.take_append_drop k rs, adjusted_append]
  exact List.mem_append_left _ ha

namespace Editor.Admits

variable {e : Editor} {root : ViewId} {c d : Document}

theorem shift (h : e.Admits root d) {φ : Bool → Nat → Nat} (hshift : d.Shifted c φ)
    (hl : c.log.WellFormed) (hs : c.log.suspended = false)
    (hn : ∀ a ∈ Record.adjusted c.log.records, ∃ u, e.userMarkers.get? a.marker = some u) :
    e.Admits root c where
  seats view v hv hroot := hshift.seats (h.seats view v hv hroot)
  keeps marker u view hu hhome := hshift.keeps (h.keeps marker u view hu hhome)
  known marker m hm hkind := by
    obtain ⟨m', hm', hkind'⟩ := hshift.known hm hkind
    exact h.known marker m' hm' hkind'
  log := hl
  takes := hs
  noted := hn

/-- A change within the text leaves a document admitted. -/
theorem apply (h : e.Admits root d) {change : Change}
    (hrange : change.rangeError d.length = none) : e.Admits root (d.apply change) := by
  cases change with
  | insert pos s =>
      refine h.shift (d.shifted_insert pos s) (h.log.recordInsert _ _) ?_ ?_
      · change (d.log.recordInsert _ _).suspended = false
        rw [UndoLog.suspended_recordInsert, h.takes]
      · intro a ha
        change a ∈ Record.adjusted (d.log.recordInsert _ _).records at ha
        rw [h.log.records_recordInsert] at ha
        split at ha
        · rw [Record.adjusted_addInsert] at ha
          exact h.noted a ha
        · exact h.noted a ha
  | delete start stop =>
      obtain ⟨hs, hstop⟩ := Change.delete_le hrange
      refine h.shift (d.shifted_delete hs hstop) (h.log.record _) ?_ ?_
      · change (d.log.record _).suspended = false
        rw [UndoLog.suspended_record, h.takes]
      · intro a ha
        change a ∈ Record.adjusted (d.log.record _).records at ha
        rw [h.log.records_record] at ha
        split at ha
        · rename_i haccepts
          simp only [Document.deletionRecord, haccepts, if_true, Record.adjusted] at ha
          rcases List.mem_append.mp ha with ha | ha
          · obtain ⟨m, hm, ⟨hkind, -⟩, -⟩ := Document.exists_of_mem_adjustments ha
            obtain ⟨u, view, hu, -⟩ := h.known a.marker m hm hkind
            exact ⟨u, hu⟩
          · exact h.noted a ha
        · exact h.noted a ha
  | property start stop key value =>
      refine h.shift (d.shifted_noteProperty start stop key value) (h.log.record _) ?_ ?_
      · change (d.log.record _).suspended = false
        rw [UndoLog.suspended_record, h.takes]
      · intro a ha
        change a ∈ Record.adjusted (d.log.record _).records at ha
        rw [h.log.records_record] at ha
        split at ha <;> exact h.noted a ha

end Editor.Admits

/-! ## Markers that are set -/

namespace Editor

variable {e : Editor} {view root : ViewId} {v : View} {c d : Document}

/-- A view that moves its own markers in order and within the text disturbs nobody. -/
theorem WellFormed.admits_reseated (h : e.WellFormed) (hs : e.Shows view v root d)
    (hseats : c.Seats v.markers)
    (hframe : ∀ id, v.markers.Outside id → c.markers.get? id = d.markers.get? id)
    (hlength : c.length = d.length) (hlog : c.log = d.log) : e.Admits root c := by
  have ha := h.admits hs.document
  constructor
  case seats =>
    intro view' v' hv' hroot
    by_cases hview : view' = view
    · subst hview
      obtain rfl := Option.some.inj (hv'.symm.trans hs.live)
      exact hseats
    · have hapart := h.marking.apart view v view' v' hs.live hv' (Ne.symm hview)
      exact (ha.seats view' v' hv' hroot).congr (hframe _ hapart.point) (hframe _ hapart.low)
        (hframe _ hapart.high) hlength
  case keeps =>
    intro marker u view' hu hhome
    obtain ⟨p, hp, hle⟩ := ha.keeps marker u view' hu hhome
    have houtside := h.marking.foreign marker u view v hu hs.live
    exact ⟨p, by rw [hframe _ houtside, hp], by rw [hlength]; exact hle⟩
  case known =>
    intro marker m hm hkind
    by_cases hid : marker = v.markers.point ∨ marker = v.markers.low ∨ marker = v.markers.high
    · exfalso
      rcases hid with rfl | rfl | rfl
      · rw [hseats.point] at hm
        cases hm
        cases hkind
      · rw [hseats.low] at hm
        cases hm
        cases hkind
      · rw [hseats.high] at hm
        cases hm
        cases hkind
    · rw [not_or, not_or] at hid
      rw [hframe marker ⟨hid.1, hid.2.1, hid.2.2⟩] at hm
      exact ha.known marker m hm hkind
  case log => exact hlog ▸ ha.log
  case takes => exact hlog ▸ ha.takes
  case noted => exact hlog ▸ ha.noted

/-- A marker of the user may be moved to any place within the text. -/
theorem WellFormed.admits_setPosition (h : e.WellFormed) (ha : e.Admits root d) {marker : MarkerId}
    {u : UserMarker} (hu : e.userMarkers.get? marker = some u) {pos : Nat} (hpos : pos ≤ d.length) :
    e.Admits root (d.setPosition marker pos) where
  seats view v hv hroot := by
    have houtside := h.marking.foreign marker u view v hu hv
    have hframe : ∀ id, marker ≠ id →
        (d.setPosition marker pos).markers.get? id = d.markers.get? id :=
      fun id hid => (Table.get?_modify _ _ _ _).trans (if_neg (Ne.symm hid))
    exact (ha.seats view v hv hroot).congr (hframe _ houtside.point) (hframe _ houtside.low)
      (hframe _ houtside.high) rfl
  keeps marker' u' view hu' hhome := by
    obtain ⟨p, hp, hle⟩ := ha.keeps marker' u' view hu' hhome
    by_cases hid : marker' = marker
    · refine ⟨pos, ?_, hpos⟩
      exact (Table.get?_modify _ _ _ _).trans (by rw [if_pos hid, hp, Option.map_some])
    · exact ⟨p, (Table.get?_modify _ _ _ _).trans (by rw [if_neg hid, hp]), hle⟩
  known marker' m hm hkind := by
    have hget := (Table.get?_modify d.markers marker marker' fun m => { m with position := pos })
    rw [show (d.setPosition marker pos).markers.get? marker' = _ from hget] at hm
    split at hm
    · obtain ⟨m', hm', rfl⟩ := Option.map_eq_some_iff.mp hm
      exact ha.known marker' m' hm' hkind
    · exact ha.known marker' m hm hkind
  log := ha.log
  takes := ha.takes
  noted := ha.noted

theorem WellFormed.admits_readjust (h : e.WellFormed) (ha : e.Admits root d)
    {a : MarkerAdjustment} (hu : ∃ u, e.userMarkers.get? a.marker = some u) :
    e.Admits root (d.readjust a) := by
  obtain ⟨u, hu⟩ := hu
  rw [Document.readjust]
  split
  · exact ha
  · exact h.admits_setPosition ha hu (by omega)

theorem WellFormed.admits_readjustAll (h : e.WellFormed) {as : List MarkerAdjustment}
    (ha : e.Admits root d) (has : ∀ a ∈ as, ∃ u, e.userMarkers.get? a.marker = some u) :
    e.Admits root (as.foldl Document.readjust d) := by
  induction as generalizing d with
  | nil => exact ha
  | cons a as ih =>
      exact ih (h.admits_readjust ha (has a List.mem_cons_self))
        fun b hb => has b (List.mem_cons_of_mem a hb)

end Editor

end Editing
