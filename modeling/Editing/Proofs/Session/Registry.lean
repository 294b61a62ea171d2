import Editing.Proofs.History.Logging
import Editing.Proofs.Session.Acting

/-!
# Well-formed editors

Which views, documents, markers and logs belong together. Every live view shows the document of a
live root; the markers that hold its point and bounds lie in that document, in order and within the
text; and a marker made by the user lies in the document of its home and in no other one.
-/

namespace Editing

namespace Record

/-- The markers that the records will put back. -/
def adjusted : List Record → List MarkerAdjustment
  | [] => []
  | .delete _ _ markers :: rs => markers ++ adjusted rs
  | _ :: rs => adjusted rs

theorem adjusted_append (rs ss : List Record) :
    adjusted (rs ++ ss) = adjusted rs ++ adjusted ss := by
  induction rs with
  | nil => rfl
  | cons r rs ih => cases r <;> simp [adjusted, ih]

theorem adjusted_subset_of_mem {pos : Nat} {text : Text} {markers : List MarkerAdjustment}
    {rs : List Record} (h : delete pos text markers ∈ rs) : ∀ a ∈ markers, a ∈ adjusted rs := by
  obtain ⟨newer, older, rfl⟩ := List.append_of_mem h
  intro a ha
  rw [adjusted_append]
  exact List.mem_append_right _ (List.mem_append_left _ ha)

theorem exists_of_mem_adjusted {rs : List Record} {a : MarkerAdjustment} (h : a ∈ adjusted rs) :
    ∃ pos text markers, delete pos text markers ∈ rs ∧ a ∈ markers := by
  induction rs with
  | nil => exact absurd h List.not_mem_nil
  | cons r rs ih =>
      have lift : a ∈ adjusted rs →
          ∃ pos text markers, delete pos text markers ∈ r :: rs ∧ a ∈ markers := by
        intro ha
        obtain ⟨pos, text, markers, hm, ha⟩ := ih ha
        exact ⟨pos, text, markers, List.mem_cons_of_mem r hm, ha⟩
      cases r with
      | delete pos text markers =>
          rcases List.mem_append.mp h with ha | ha
          · exact ⟨pos, text, markers, List.mem_cons_self, ha⟩
          · exact lift ha
      | insert _ _ => exact lift h
      | property _ _ _ _ => exact lift h
      | boundary => exact lift h

end Record

namespace ViewMarkers

/-- A marker that is none of a view's. -/
structure Outside (ids : ViewMarkers) (marker : MarkerId) : Prop where
  point : marker ≠ ids.point
  low : marker ≠ ids.low
  high : marker ≠ ids.high

/-- Two views that have no marker in common. -/
structure Apart (ids other : ViewMarkers) : Prop where
  point : ids.Outside other.point
  low : ids.Outside other.low
  high : ids.Outside other.high

theorem Apart.symm {ids other : ViewMarkers} (h : ids.Apart other) : other.Apart ids :=
  ⟨⟨h.point.point.symm, h.low.point.symm, h.high.point.symm⟩,
    ⟨h.point.low.symm, h.low.low.symm, h.high.low.symm⟩,
    ⟨h.point.high.symm, h.low.high.symm, h.high.high.symm⟩⟩

/-- The three markers of a view differ, and all of them have been made. -/
structure Distinct (ids : ViewMarkers) (next : MarkerId) : Prop where
  low_ne : ids.low ≠ ids.point
  high_ne : ids.high ≠ ids.point
  high_ne_low : ids.high ≠ ids.low
  point_lt : ids.point < next
  low_lt : ids.low < next
  high_lt : ids.high < next

theorem Distinct.mono {ids : ViewMarkers} {m n : MarkerId} (h : ids.Distinct m) (hmn : m ≤ n) :
    ids.Distinct n :=
  ⟨h.low_ne, h.high_ne, h.high_ne_low, Nat.lt_of_lt_of_le h.point_lt hmn,
    Nat.lt_of_lt_of_le h.low_lt hmn, Nat.lt_of_lt_of_le h.high_lt hmn⟩

end ViewMarkers

namespace Document

variable {d : Document} {ids : ViewMarkers}

/-- The markers of a view lie in the document, in order and within the text. -/
structure Seats (d : Document) (ids : ViewMarkers) : Prop where
  point : d.markers.get? ids.point = some ⟨(d.extent ids).point, false, .view⟩
  low : d.markers.get? ids.low = some ⟨(d.extent ids).low, false, .view⟩
  high : d.markers.get? ids.high = some ⟨(d.extent ids).high, true, .view⟩
  low_le : (d.extent ids).low ≤ (d.extent ids).point
  le_high : (d.extent ids).point ≤ (d.extent ids).high
  high_le : (d.extent ids).high ≤ d.length

/-- A user's marker lies in the document, within the text. -/
def Keeps (d : Document) (marker : MarkerId) (advances : Bool) : Prop :=
  ∃ p, d.markers.get? marker = some ⟨p, advances, .user⟩ ∧ p ≤ d.length

theorem extent_of_markers {x : Extent} {point low high : Marker}
    (hp : d.markers.get? ids.point = some point) (hl : d.markers.get? ids.low = some low)
    (hh : d.markers.get? ids.high = some high)
    (hx : x = ⟨point.position, low.position, high.position⟩)
    (h1 : x.low ≤ x.point) (h2 : x.point ≤ x.high) (h3 : x.high ≤ d.length) : d.extent ids = x := by
  subst hx
  simp only at h1 h2 h3
  have hlow : min low.position d.length = low.position := by omega
  simp only [extent, Markers.position?, hp, hl, hh, Option.map_some, Option.getD_some, hlow,
    Position.clamp_of_mem (Nat.le_trans h1 h2) h3, Position.clamp_of_mem h1 h2]

theorem seats_of_markers {x : Extent} (hp : d.markers.get? ids.point = some ⟨x.point, false, .view⟩)
    (hl : d.markers.get? ids.low = some ⟨x.low, false, .view⟩)
    (hh : d.markers.get? ids.high = some ⟨x.high, true, .view⟩)
    (h1 : x.low ≤ x.point) (h2 : x.point ≤ x.high) (h3 : x.high ≤ d.length) :
    d.Seats ids ∧ d.extent ids = x := by
  have hx : d.extent ids = x := extent_of_markers hp hl hh rfl h1 h2 h3
  exact ⟨⟨hx.symm ▸ hp, hx.symm ▸ hl, hx.symm ▸ hh, hx.symm ▸ h1, hx.symm ▸ h2, hx.symm ▸ h3⟩, hx⟩

theorem extent_congr {c : Document} (hp : c.markers.get? ids.point = d.markers.get? ids.point)
    (hl : c.markers.get? ids.low = d.markers.get? ids.low)
    (hh : c.markers.get? ids.high = d.markers.get? ids.high) (hlen : c.length = d.length) :
    c.extent ids = d.extent ids := by
  simp only [extent, Markers.position?, hp, hl, hh, hlen]

theorem Seats.congr (h : d.Seats ids) {c : Document}
    (hp : c.markers.get? ids.point = d.markers.get? ids.point)
    (hl : c.markers.get? ids.low = d.markers.get? ids.low)
    (hh : c.markers.get? ids.high = d.markers.get? ids.high) (hlen : c.length = d.length) :
    c.Seats ids := by
  have hx := extent_congr hp hl hh hlen
  refine (seats_of_markers (x := d.extent ids) ?_ ?_ ?_ h.low_le h.le_high (hlen ▸ h.high_le)).1
  · rw [hp, h.point]
  · rw [hl, h.low]
  · rw [hh, h.high]

end Document

namespace Editor

variable {e : Editor} {view root : ViewId} {v : View} {d : Document}

/-- The view is live and shows the document of the root. -/
structure Shows (e : Editor) (view : ViewId) (v : View) (root : ViewId) (d : Document) : Prop where
  live : e.views.get? view = some v
  root_eq : v.base.getD view = root
  document : e.documents.get? root = some d

/-- Views, documents and the current view fit together. -/
structure Registry (e : Editor) : Prop where
  owned : ∀ root v, e.views.get? root = some v → v.base = none →
    ∃ d, e.documents.get? root = some d
  owner : ∀ root d, e.documents.get? root = some d →
    ∃ v, e.views.get? root = some v ∧ v.base = none
  based : ∀ view v root, e.views.get? view = some v → v.base = some root →
    ∃ w, e.views.get? root = some w ∧ w.base = none
  numbered : ∀ view v, e.views.get? view = some v → view < e.nextView
  current_live : ∀ view, e.current = some view → ∃ v, e.views.get? view = some v
  current_none : e.current = none → ∀ view, e.views.get? view = none

/-- Markers belong to one view or to the user, and lie where their owner is. -/
structure Marking (e : Editor) : Prop where
  distinct : ∀ view v, e.views.get? view = some v → v.markers.Distinct e.nextMarker
  apart : ∀ view v view' v', e.views.get? view = some v → e.views.get? view' = some v' →
    view ≠ view' → v.markers.Apart v'.markers
  foreign : ∀ marker u view v, e.userMarkers.get? marker = some u → e.views.get? view = some v →
    v.markers.Outside marker
  numbered : ∀ marker u, e.userMarkers.get? marker = some u → marker < e.nextMarker
  seated : ∀ view v root d, e.Shows view v root d → d.Seats v.markers
  homed : ∀ marker u home, e.userMarkers.get? marker = some u → u.home = some home →
    ∃ v d, e.Shows home.view v home.root d ∧ d.Keeps marker u.advances
  known : ∀ root d marker m, e.documents.get? root = some d → d.markers.get? marker = some m →
    m.kind = .user → ∃ u view, e.userMarkers.get? marker = some u ∧ u.home = some ⟨view, root⟩

/-- The logs are well formed, take records, and name no markers but those of the user. -/
structure Logging (e : Editor) : Prop where
  log : ∀ root d, e.documents.get? root = some d → d.log.WellFormed ∧ d.log.suspended = false
  noted : ∀ root d, e.documents.get? root = some d → ∀ a ∈ Record.adjusted d.log.records,
    ∃ u, e.userMarkers.get? a.marker = some u

/-- Everything that an editor holds fits together. -/
structure WellFormed (e : Editor) : Prop where
  registry : e.Registry
  marking : e.Marking
  logging : e.Logging

theorem empty_wellFormed (limits : Limits) : (empty limits).WellFormed where
  registry := by constructor <;> simp [empty]
  marking := by
    constructor
    case seated => exact fun _ _ _ _ h => absurd h.live (by simp [empty])
    all_goals simp [empty]
  logging := by constructor <;> simp [empty]

/-! ## Looking things up -/

theorem view_of_get (h : e.views.get? view = some v) : e.view view = .ok v := by
  rw [Editor.view, h]

theorem view_of_dead (h : e.views.get? view = none) : e.view view = .error (.noLiveView view) := by
  rw [Editor.view, h]

theorem rootOf_of_dead (h : e.views.get? view = none) :
    e.rootOf view = .error (.noLiveView view) := by
  rw [rootOf, view_of_dead h]
  rfl

theorem document_of_dead (h : e.views.get? view = none) :
    e.document view = .error (.noLiveView view) := by
  rw [document, rootOf_of_dead h]
  rfl

theorem extent_of_dead (h : e.views.get? view = none) :
    e.extent view = .error (.noLiveView view) := by
  rw [extent, view_of_dead h]
  rfl

theorem accessibleRange_of_dead (h : e.views.get? view = none) (p q : Nat) :
    e.accessibleRange view p q = .error (.noLiveView view) := by
  rw [accessibleRange, extent_of_dead h]
  rfl

theorem refuseReadOnly_of_dead (h : e.views.get? view = none) :
    e.refuseReadOnly view = .error (.noLiveView view) := by
  rw [refuseReadOnly, isProtected, view_of_dead h]
  rfl

namespace Shows

theorem view_eq (h : e.Shows view v root d) : e.view view = .ok v := view_of_get h.live

theorem rootOf_eq (h : e.Shows view v root d) : e.rootOf view = .ok root := by
  rw [rootOf, h.view_eq]
  exact congrArg Except.ok h.root_eq

theorem document_eq (h : e.Shows view v root d) : e.document view = .ok d := by
  rw [Editor.document, h.rootOf_eq]
  simp only [bind, Except.bind, h.document]
  rfl

theorem extent_eq (h : e.Shows view v root d) : e.extent view = .ok (d.extent v.markers) := by
  rw [Editor.extent, h.view_eq, h.document_eq]
  rfl

theorem fullText_eq (h : e.Shows view v root d) : e.fullText view = .ok d.text := by
  rw [Editor.fullText, h.document_eq]
  rfl

theorem undoRecords_eq (h : e.Shows view v root d) : e.undoRecords view = .ok d.log.records := by
  rw [Editor.undoRecords, h.document_eq]
  rfl

theorem undoEnabled_eq (h : e.Shows view v root d) : e.undoEnabled view = .ok d.log.isEnabled := by
  rw [Editor.undoEnabled, h.document_eq]
  rfl

theorem isNarrowed_eq (h : e.Shows view v root d) :
    e.isNarrowed view =
      .ok ((d.extent v.markers).low != 0 || (d.extent v.markers).high != d.length) := by
  rw [Editor.isNarrowed, h.extent_eq, Editor.size, h.document_eq]
  rfl

theorem isProtected_eq (h : e.Shows view v root d) :
    e.isProtected view = .ok (v.readOnly && !e.inhibitReadOnly) := by
  rw [Editor.isProtected, h.view_eq]
  rfl

theorem accessibleRange_eq (h : e.Shows view v root d) (p q : Nat) :
    e.accessibleRange view p q =
      if (Position.ordered p q).1 < (d.extent v.markers).low ∨
          (d.extent v.markers).high < (Position.ordered p q).2 then
        .error (.outOfRange (Position.ordered p q).1 (Position.ordered p q).2
          (d.extent v.markers).low (d.extent v.markers).high)
      else .ok (Position.ordered p q) := by
  rw [accessibleRange, h.extent_eq]
  simp only [bind, Except.bind, pure, Except.pure, throw, throwThe, MonadExceptOf.throw]

theorem refuseHidden_eq (h : e.Shows view v root d) (start stop : Nat) :
    e.refuseHidden view start stop =
      if start < (d.extent v.markers).low ∨ (d.extent v.markers).high < stop then
        .error .hiddenChange
      else .ok () := by
  rw [refuseHidden, h.extent_eq]
  simp only [bind, Except.bind, pure, Except.pure, throw, throwThe, MonadExceptOf.throw]

theorem unique {v' : View} {root' : ViewId} {d' : Document} (h : e.Shows view v root d)
    (h' : e.Shows view v' root' d') : v = v' ∧ root = root' ∧ d = d' := by
  obtain rfl := Option.some.inj (h.live.symm.trans h'.live)
  obtain rfl := h.root_eq.symm.trans h'.root_eq
  exact ⟨rfl, rfl, Option.some.inj (h.document.symm.trans h'.document)⟩

end Shows

namespace Registry

theorem shows_of_live (hr : e.Registry) (h : e.views.get? view = some v) :
    ∃ root d, e.Shows view v root d := by
  cases hb : v.base with
  | none =>
      obtain ⟨d, hd⟩ := hr.owned view v h hb
      exact ⟨view, d, h, by rw [hb, Option.getD_none], hd⟩
  | some root =>
      obtain ⟨w, hw, hwb⟩ := hr.based view v root h hb
      obtain ⟨d, hd⟩ := hr.owned root w hw hwb
      exact ⟨root, d, h, by rw [hb, Option.getD_some], hd⟩

theorem dead_or_shows (hr : e.Registry) (view : ViewId) :
    e.views.get? view = none ∨ ∃ v root d, e.Shows view v root d := by
  cases h : e.views.get? view with
  | none => exact Or.inl rfl
  | some v => exact Or.inr ⟨v, hr.shows_of_live h⟩

theorem shows_of_rootOf (hr : e.Registry) (h : e.rootOf view = .ok root) :
    ∃ v d, e.Shows view v root d := by
  rcases hr.dead_or_shows view with hdead | ⟨v, r, d, hs⟩
  · rw [Editor.rootOf_of_dead hdead] at h
    cases h
  · rw [hs.rootOf_eq] at h
    cases h
    exact ⟨v, d, hs⟩

/-- As long as any view is live, a live view is current. -/
theorem exists_current (hr : e.Registry) (h : e.views.get? view = some v) :
    ∃ current, e.current = some current ∧ ∃ w, e.views.get? current = some w := by
  cases hcurrent : e.current with
  | none =>
      rw [hr.current_none hcurrent view] at h
      cases h
  | some current => exact ⟨current, rfl, hr.current_live current hcurrent⟩

theorem shows_root (hr : e.Registry) (h : e.documents.get? root = some d) :
    ∃ w, e.Shows root w root d ∧ w.base = none := by
  obtain ⟨w, hw, hb⟩ := hr.owner root d h
  exact ⟨w, ⟨hw, by rw [hb, Option.getD_none], h⟩, hb⟩

theorem fullText_root (hr : e.Registry) (h : e.documents.get? root = some d) :
    e.fullText root = .ok d.text := by
  obtain ⟨w, hw, -⟩ := hr.shows_root h
  exact hw.fullText_eq

theorem document_lt (hr : e.Registry) (h : e.documents.get? root = some d) :
    root < e.nextView := by
  obtain ⟨v, hv, -⟩ := hr.owner root d h
  exact hr.numbered root v hv

/-- There is no document yet for a number that no view has had. -/
theorem document_nextView (hr : e.Registry) : e.documents.get? e.nextView = none := by
  cases hd : e.documents.get? e.nextView with
  | none => rfl
  | some d => exact absurd (hr.document_lt hd) (Nat.lt_irrefl _)

end Registry

end Editor

/-! ## Changes of what a view shows -/

namespace Session

theorem shows_onDocument {s : Session} {view r : ViewId} {v : View} {d : Document}
    (h : s.editor.Shows view v r d) (root : ViewId) (f : Document → Document) :
    (s.onDocument root f).editor.Shows view v r (if r = root then f d else d) := by
  refine ⟨h.live, h.root_eq, ?_⟩
  rw [get?_onDocument, h.document]
  split <;> rfl

theorem shows_onDocument_self {s : Session} {view root : ViewId} {v : View} {d : Document}
    (h : s.editor.Shows view v root d) (f : Document → Document) :
    (s.onDocument root f).editor.Shows view v root (f d) := by
  have hshown := shows_onDocument h root f
  rwa [if_pos rfl] at hshown

end Session

namespace Act

variable {s : Session} {view root : ViewId} {v : View} {d : Document}

theorem run_changeShown (h : s.editor.Shows view v root d) (f : Document → Document) :
    (changeShown view f).run s = (.ok (), s.onDocument root f) := by
  rw [changeShown, run_ask_bind h.document_eq, run_ask_bind h.rootOf_eq, run_changeDocument]

theorem Succeeds.changeShown (h : s.editor.Shows view v root d) (f : Document → Document) :
    Succeeds (changeShown view f) s := ⟨_, _, run_changeShown h f⟩

theorem run_changeShown_of_dead (h : s.editor.views.get? view = none) (f : Document → Document) :
    (changeShown view f).run s = (.error (.noLiveView view), s) := by
  rw [changeShown, run_ask_bind_error (Editor.document_of_dead h)]

theorem run_changeView (h : s.editor.views.get? view = some v) (f : View → View) :
    (changeView view f).run s =
      (.ok (), s.edit fun e => { e with views := e.views.modify view f }) := by
  rw [changeView, run_ask_bind (Editor.view_of_get h), run_change]

end Act

end Editing
