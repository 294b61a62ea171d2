import Editing.Proofs.Session.Admitted

/-!
# Views and markers that come and go

An editor stays well formed when a document is replaced by one that it admits, when a marker of the
user is made or settled anew, and when views are added and removed.
-/

namespace Editing

namespace Editor

variable {e e' : Editor} {root view : ViewId} {v : View} {d : Document}

namespace Admits

theorem recast (h : e.Admits root d) (hviews : e'.views = e.views)
    (husers : e'.userMarkers = e.userMarkers) : e'.Admits root d where
  seats view v hv := h.seats view v (hviews ▸ hv)
  keeps marker u view hu := h.keeps marker u view (husers ▸ hu)
  known marker m hm hkind := husers ▸ h.known marker m hm hkind
  log := h.log
  takes := h.takes
  noted := husers ▸ h.noted

end Admits

theorem WellFormed.replaceDocument (h : e.WellFormed) {f : Document → Document}
    (hf : ∀ d, e.documents.get? root = some d → e.Admits root (f d)) :
    WellFormed { e with documents := e.documents.modify root f } := by
  have hget : ∀ r d, (e.documents.modify root f).get? r = some d →
      e.Admits r d ∧ ∃ c, e.documents.get? r = some c := by
    intro r d hd
    rw [Table.get?_modify] at hd
    split at hd
    · rename_i hr
      obtain ⟨c, hc, rfl⟩ := Option.map_eq_some_iff.mp hd
      exact ⟨hr ▸ hf c (hr ▸ hc), c, hc⟩
    · exact ⟨h.admits hd, d, hd⟩
  refine wellFormed_of_admits ?_ h.marking.distinct h.marking.apart h.marking.foreign
    h.marking.numbered ?_ fun r d hd => (hget r d hd).1.recast rfl rfl
  · constructor
    case owned =>
      intro r v hv hb
      obtain ⟨d, hd⟩ := h.registry.owned r v hv hb
      change ∃ d, (e.documents.modify root f).get? r = some d
      rw [Table.get?_modify, hd]
      split
      · exact ⟨f d, rfl⟩
      · exact ⟨d, rfl⟩
    case owner =>
      intro r d hd
      obtain ⟨-, c, hc⟩ := hget r d hd
      exact h.registry.owner r c hc
    case based => exact h.registry.based
    case numbered => exact h.registry.numbered
    case current_live => exact h.registry.current_live
    case current_none => exact h.registry.current_none
  · intro marker u home hu hhome
    obtain ⟨v, d, hs, -⟩ := h.marking.homed marker u home hu hhome
    exact ⟨v, hs.live, hs.root_eq⟩

/-- A view may be changed in what is neither its base nor its markers. -/
theorem WellFormed.replaceView (h : e.WellFormed) {f : View → View}
    (hbase : ∀ v, (f v).base = v.base) (hmarkers : ∀ v, (f v).markers = v.markers) :
    WellFormed { e with views := e.views.modify view f } := by
  have hget : ∀ w v, (e.views.modify view f).get? w = some v →
      ∃ v', e.views.get? w = some v' ∧ v.base = v'.base ∧ v.markers = v'.markers := by
    intro w v hv
    rw [Table.get?_modify] at hv
    split at hv
    · obtain ⟨v', hv', rfl⟩ := Option.map_eq_some_iff.mp hv
      exact ⟨v', hv', hbase v', hmarkers v'⟩
    · exact ⟨v, hv, rfl, rfl⟩
  have hput : ∀ w v', e.views.get? w = some v' →
      ∃ v, (e.views.modify view f).get? w = some v ∧ v.base = v'.base := by
    intro w v' hv'
    rw [Table.get?_modify, hv']
    split
    · exact ⟨f v', rfl, hbase v'⟩
    · exact ⟨v', rfl, rfl⟩
  refine wellFormed_of_admits ?_ ?_ ?_ ?_ h.marking.numbered ?_ ?_
  · constructor
    case owned =>
      intro r v hv hb
      obtain ⟨v', hv', hbase', -⟩ := hget r v hv
      exact h.registry.owned r v' hv' (hbase' ▸ hb)
    case owner =>
      intro r d hd
      obtain ⟨v', hv', hb⟩ := h.registry.owner r d hd
      obtain ⟨v, hv, hbase'⟩ := hput r v' hv'
      exact ⟨v, hv, hbase'.trans hb⟩
    case based =>
      intro w v r hv hb
      obtain ⟨v', hv', hbase', -⟩ := hget w v hv
      obtain ⟨x', hx', hxb⟩ := h.registry.based w v' r hv' (hbase' ▸ hb)
      obtain ⟨x, hx, hbase''⟩ := hput r x' hx'
      exact ⟨x, hx, hbase''.trans hxb⟩
    case numbered =>
      intro w v hv
      obtain ⟨v', hv', -⟩ := hget w v hv
      exact h.registry.numbered w v' hv'
    case current_live =>
      intro w hw
      obtain ⟨v', hv'⟩ := h.registry.current_live w hw
      obtain ⟨v, hv, -⟩ := hput w v' hv'
      exact ⟨v, hv⟩
    case current_none =>
      intro hc w
      have hnone := h.registry.current_none hc w
      change (e.views.modify view f).get? w = none
      rw [Table.get?_modify, hnone]
      split <;> rfl
  · intro w v hv
    obtain ⟨v', hv', -, hm⟩ := hget w v hv
    exact hm ▸ h.marking.distinct w v' hv'
  · intro w v x y hv hy hne
    obtain ⟨v', hv', -, hm⟩ := hget w v hv
    obtain ⟨y', hy', -, hm'⟩ := hget x y hy
    exact hm ▸ hm' ▸ h.marking.apart w v' x y' hv' hy' hne
  · intro marker u w v hu hv
    obtain ⟨v', hv', -, hm⟩ := hget w v hv
    exact hm ▸ h.marking.foreign marker u w v' hu hv'
  · intro marker u home hu hhome
    obtain ⟨v', d, hs, -⟩ := h.marking.homed marker u home hu hhome
    obtain ⟨v, hv, hbase'⟩ := hput home.view v' hs.live
    exact ⟨v, hv, by rw [hbase']; exact hs.root_eq⟩
  · intro r d hd
    have ha := h.admits hd
    refine ⟨?_, ha.keeps, ha.known, ha.log, ha.takes, ha.noted⟩
    intro w v hv hroot
    obtain ⟨v', hv', hbase', hm⟩ := hget w v hv
    exact hm ▸ ha.seats w v' hv' (hbase' ▸ hroot)

theorem WellFormed.setCurrent (h : e.WellFormed) (hv : e.views.get? view = some v) :
    WellFormed { e with current := some view } := by
  refine wellFormed_of_admits ?_ h.marking.distinct h.marking.apart h.marking.foreign
    h.marking.numbered ?_ fun r d hd => (h.admits hd).recast rfl rfl
  · refine ⟨h.registry.owned, h.registry.owner, h.registry.based, h.registry.numbered, ?_, ?_⟩
    · intro w hw
      cases hw
      exact ⟨v, hv⟩
    · intro hc
      cases hc
  · intro marker u home hu hhome
    obtain ⟨v', d, hs, -⟩ := h.marking.homed marker u home hu hhome
    exact ⟨v', hs.live, hs.root_eq⟩

/-! ## Markers made and settled -/

theorem WellFormed.makeMarker (h : e.WellFormed) :
    WellFormed { e with
      userMarkers := e.userMarkers.insert e.nextMarker ⟨none, false⟩
      nextMarker := e.nextMarker + 1 } := by
  have hget : ∀ marker u, (e.userMarkers.insert e.nextMarker ⟨none, false⟩).get? marker = some u →
      marker = e.nextMarker ∧ u.home = none ∨ e.userMarkers.get? marker = some u := by
    intro marker u hu
    rw [Table.get?_insert] at hu
    split at hu
    · cases hu
      exact Or.inl ⟨‹_›, rfl⟩
    · exact Or.inr hu
  have hput : ∀ marker u, e.userMarkers.get? marker = some u →
      (e.userMarkers.insert e.nextMarker ⟨none, false⟩).get? marker = some u := by
    intro marker u hu
    rw [Table.get?_insert_of_ne _ _ (Nat.ne_of_lt (h.marking.numbered marker u hu)), hu]
  refine wellFormed_of_admits ?_ ?_ h.marking.apart ?_ ?_ ?_ ?_
  · exact ⟨h.registry.owned, h.registry.owner, h.registry.based, h.registry.numbered,
      h.registry.current_live, h.registry.current_none⟩
  · exact fun w v hv => (h.marking.distinct w v hv).mono (Nat.le_succ _)
  · intro marker u w v hu hv
    rcases hget marker u hu with ⟨rfl, -⟩ | hu
    · have hd := h.marking.distinct w v hv
      exact ⟨(Nat.ne_of_lt hd.point_lt).symm, (Nat.ne_of_lt hd.low_lt).symm,
        (Nat.ne_of_lt hd.high_lt).symm⟩
    · exact h.marking.foreign marker u w v hu hv
  · intro marker u hu
    rcases hget marker u hu with ⟨rfl, -⟩ | hu
    · exact Nat.lt_succ_self _
    · exact Nat.lt_succ_of_lt (h.marking.numbered marker u hu)
  · intro marker u home hu hhome
    rcases hget marker u hu with ⟨-, hnone⟩ | hu
    · rw [hnone] at hhome
      cases hhome
    · obtain ⟨v', d, hs, -⟩ := h.marking.homed marker u home hu hhome
      exact ⟨v', hs.live, hs.root_eq⟩
  · intro r d hd
    have ha := h.admits hd
    refine ⟨ha.seats, ?_, ?_, ha.log, ha.takes, ?_⟩
    · intro marker u w hu hhome
      rcases hget marker u hu with ⟨-, hnone⟩ | hu
      · rw [hnone] at hhome
        cases hhome
      · exact ha.keeps marker u w hu hhome
    · intro marker m hm hkind
      obtain ⟨u, w, hu, hhome⟩ := ha.known marker m hm hkind
      exact ⟨u, w, hput marker u hu, hhome⟩
    · intro a hmem
      obtain ⟨u, hu⟩ := ha.noted a hmem
      exact ⟨u, hput a.marker u hu⟩

/-- A marker of the user may be settled anew, as long as the documents differ in nothing else and
hold the marker just where its home says. -/
theorem WellFormed.settle (h : e.WellFormed) {marker : MarkerId} {u : UserMarker}
    (hu : e.userMarkers.get? marker = some u) {g : ViewId → Document → Document}
    {documents : Table Document} {f : UserMarker → UserMarker}
    (hdocuments : ∀ r, documents.get? r = (e.documents.get? r).map (g r))
    (hlength : ∀ r d, (g r d).length = d.length) (hlog : ∀ r d, (g r d).log = d.log)
    (hframe : ∀ r d id, id ≠ marker → (g r d).markers.get? id = d.markers.get? id)
    (hhome : ∀ view root, (f u).home = some ⟨view, root⟩ →
      ∃ v d, e.Shows view v root d ∧ (g root d).Keeps marker (f u).advances)
    (hknown : ∀ r d m, e.documents.get? r = some d → (g r d).markers.get? marker = some m →
      m.kind = .user → ∃ view, (f u).home = some ⟨view, r⟩) :
    WellFormed { e with documents := documents, userMarkers := e.userMarkers.modify marker f } := by
  have hget : ∀ id u', (e.userMarkers.modify marker f).get? id = some u' →
      id = marker ∧ u' = f u ∨ id ≠ marker ∧ e.userMarkers.get? id = some u' := by
    intro id u' hu'
    rw [Table.get?_modify] at hu'
    split at hu'
    · rename_i hid
      rw [hid, hu, Option.map_some, Option.some.injEq] at hu'
      exact Or.inl ⟨hid, hu'.symm⟩
    · exact Or.inr ⟨‹_›, hu'⟩
  have hold : ∀ id u', (e.userMarkers.modify marker f).get? id = some u' →
      ∃ u, e.userMarkers.get? id = some u := by
    intro id u' hu'
    rcases hget id u' hu' with ⟨rfl, -⟩ | ⟨-, hu'⟩
    · exact ⟨u, hu⟩
    · exact ⟨u', hu'⟩
  have hput : ∀ id u', e.userMarkers.get? id = some u' →
      ∃ u'', (e.userMarkers.modify marker f).get? id = some u'' := by
    intro id u' hu'
    rw [Table.get?_modify, hu']
    split
    · exact ⟨f u', rfl⟩
    · exact ⟨u', rfl⟩
  refine wellFormed_of_admits ?_ h.marking.distinct h.marking.apart ?_ ?_ ?_ ?_
  · constructor
    case owned =>
      intro r v hv hb
      obtain ⟨d, hd⟩ := h.registry.owned r v hv hb
      exact ⟨g r d, by rw [hdocuments, hd, Option.map_some]⟩
    case owner =>
      intro r d hd
      rw [show documents.get? r = _ from hdocuments r] at hd
      obtain ⟨c, hc, -⟩ := Option.map_eq_some_iff.mp hd
      exact h.registry.owner r c hc
    case based => exact h.registry.based
    case numbered => exact h.registry.numbered
    case current_live => exact h.registry.current_live
    case current_none => exact h.registry.current_none
  · intro id u' w v hu' hv
    obtain ⟨u'', hu''⟩ := hold id u' hu'
    exact h.marking.foreign id u'' w v hu'' hv
  · intro id u' hu'
    obtain ⟨u'', hu''⟩ := hold id u' hu'
    exact h.marking.numbered id u'' hu''
  · intro id u' home hu' hhome'
    rcases hget id u' hu' with ⟨rfl, rfl⟩ | ⟨-, hu'⟩
    · obtain ⟨v, d, hs, -⟩ := hhome home.view home.root hhome'
      exact ⟨v, hs.live, hs.root_eq⟩
    · obtain ⟨v, d, hs, -⟩ := h.marking.homed id u' home hu' hhome'
      exact ⟨v, hs.live, hs.root_eq⟩
  · intro r c hc
    rw [show documents.get? r = _ from hdocuments r] at hc
    obtain ⟨d, hd, rfl⟩ := Option.map_eq_some_iff.mp hc
    have ha := h.admits hd
    constructor
    case seats =>
      intro w v hv hroot
      have houtside := h.marking.foreign marker u w v hu hv
      exact (ha.seats w v hv hroot).congr (hframe r d _ houtside.point.symm)
        (hframe r d _ houtside.low.symm) (hframe r d _ houtside.high.symm) (hlength r d)
    case keeps =>
      intro id u' w hu' hhome'
      rcases hget id u' hu' with ⟨rfl, rfl⟩ | ⟨hid, hu'⟩
      · obtain ⟨v, c, hs, hkeeps⟩ := hhome w r hhome'
        obtain rfl := Option.some.inj (hs.document.symm.trans hd)
        exact hkeeps
      · obtain ⟨p, hp, hle⟩ := ha.keeps id u' w hu' hhome'
        exact ⟨p, by rw [hframe r d id hid, hp], by rw [hlength]; exact hle⟩
    case known =>
      intro id m hm hkind
      by_cases hid : id = marker
      · subst hid
        obtain ⟨w, hw⟩ := hknown r d m hd hm hkind
        exact ⟨f u, w, by
          change (e.userMarkers.modify id f).get? id = _
          rw [Table.get?_modify, if_pos rfl, hu, Option.map_some], hw⟩
      · rw [hframe r d id hid] at hm
        obtain ⟨u', w, hu', hw⟩ := ha.known id m hm hkind
        exact ⟨u', w, (Table.get?_modify _ _ _ _).trans (by rw [if_neg hid, hu']), hw⟩
    case log => exact (hlog r d).symm ▸ ha.log
    case takes => exact (hlog r d).symm ▸ ha.takes
    case noted =>
      intro a hmem
      rw [hlog] at hmem
      obtain ⟨u', hu'⟩ := ha.noted a hmem
      exact hput a.marker u' hu'

/-! ## Views that come and go -/

theorem distinct_nextMarkers (e : Editor) : e.nextMarkers.Distinct (e.nextMarker + 3) := by
  have hne : ∀ n : Nat, n + 1 ≠ n ∧ n + 2 ≠ n ∧ n + 2 ≠ n + 1 ∧ n < n + 3 ∧ n + 1 < n + 3 ∧
      n + 2 < n + 3 := by omega
  obtain ⟨h1, h2, h3, h4, h5, h6⟩ := hne e.nextMarker
  exact ⟨h1, h2, h3, h4, h5, h6⟩

theorem outside_nextMarkers {id : MarkerId} (h : id < e.nextMarker) : e.nextMarkers.Outside id := by
  have hne : ∀ k n : Nat, k < n → k ≠ n ∧ k ≠ n + 1 ∧ k ≠ n + 2 := by omega
  obtain ⟨h1, h2, h3⟩ := hne id e.nextMarker h
  exact ⟨h1, h2, h3⟩

theorem apart_nextMarkers {ids : ViewMarkers} (h : ids.Distinct e.nextMarker) :
    e.nextMarkers.Apart ids :=
  ⟨outside_nextMarkers h.point_lt, outside_nextMarkers h.low_lt, outside_nextMarkers h.high_lt⟩

/-- A view may be added at a root or with a root of its own, as long as the documents stay admitted
and hold the markers of the new view. -/
theorem WellFormed.addView (h : e.WellFormed) {name : String} {base current : Option ViewId}
    {documents : Table Document}
    (hbase : ∀ root, base = some root → ∃ w, e.views.get? root = some w ∧ w.base = none)
    (hlive : ∀ view, current = some view → view = e.nextView ∨ e.current = some view)
    (hsome : current ≠ none)
    (hdocuments : ∀ r, (∃ d, documents.get? r = some d) ↔
      (∃ d, e.documents.get? r = some d) ∨ base = none ∧ r = e.nextView)
    (hadmits : ∀ r d, documents.get? r = some d → e.Admits r d)
    (hseats : ∀ d, documents.get? (base.getD e.nextView) = some d → d.Seats e.nextMarkers) :
    WellFormed { e.addView name base with documents := documents, current := current } := by
  have hget : ∀ w v, (e.addView name base).views.get? w = some v →
      w = e.nextView ∧ v.base = base ∧ v.markers = e.nextMarkers ∨
        w ≠ e.nextView ∧ e.views.get? w = some v := by
    intro w v hv
    rw [Editor.addView, Table.get?_insert] at hv
    split at hv
    · cases hv
      exact Or.inl ⟨‹_›, rfl, rfl⟩
    · exact Or.inr ⟨‹_›, hv⟩
  have hput : ∀ w v, e.views.get? w = some v →
      (e.addView name base).views.get? w = some v := by
    intro w v hv
    rw [Editor.addView, Table.get?_insert_of_ne _ _ (Nat.ne_of_lt (h.registry.numbered w v hv)), hv]
  have hnew : (e.addView name base).views.get? e.nextView =
      some ⟨e.freeName name, base, e.nextMarkers, false⟩ := Table.get?_insert_self _ _ _
  refine wellFormed_of_admits ?_ ?_ ?_ ?_ ?_ ?_ ?_
  · constructor
    case owned =>
      intro r v hv hb
      rcases hget r v hv with ⟨hr, hvb, -⟩ | ⟨-, hv⟩
      · exact (hdocuments r).mpr (Or.inr ⟨hvb ▸ hb, hr⟩)
      · exact (hdocuments r).mpr (Or.inl (h.registry.owned r v hv hb))
    case owner =>
      intro r d hd
      rcases (hdocuments r).mp ⟨d, hd⟩ with ⟨c, hc⟩ | ⟨hb, rfl⟩
      · obtain ⟨v, hv, hvb⟩ := h.registry.owner r c hc
        exact ⟨v, hput r v hv, hvb⟩
      · exact ⟨_, hnew, hb⟩
    case based =>
      intro w v r hv hb
      have hold : ∃ x, e.views.get? r = some x ∧ x.base = none := by
        rcases hget w v hv with ⟨-, hvb, -⟩ | ⟨-, hv⟩
        · exact hbase r (hvb ▸ hb)
        · exact h.registry.based w v r hv hb
      obtain ⟨x, hx, hxb⟩ := hold
      exact ⟨x, hput r x hx, hxb⟩
    case numbered =>
      intro w v hv
      rcases hget w v hv with ⟨rfl, -⟩ | ⟨-, hv⟩
      · exact Nat.lt_succ_self _
      · exact Nat.lt_succ_of_lt (h.registry.numbered w v hv)
    case current_live =>
      intro w hw
      rcases hlive w hw with rfl | hw
      · exact ⟨_, hnew⟩
      · obtain ⟨v, hv⟩ := h.registry.current_live w hw
        exact ⟨v, hput w v hv⟩
    case current_none => exact fun hc => absurd hc hsome
  · intro w v hv
    rcases hget w v hv with ⟨-, -, hm⟩ | ⟨-, hv⟩
    · rw [hm]
      exact distinct_nextMarkers e
    · exact (h.marking.distinct w v hv).mono (Nat.le_add_right _ 3)
  · intro w v x y hv hy hne
    rcases hget w v hv with ⟨rfl, -, hm⟩ | ⟨-, hv⟩
    · rcases hget x y hy with ⟨rfl, -⟩ | ⟨-, hy⟩
      · exact absurd rfl hne
      · rw [hm]
        exact apart_nextMarkers (h.marking.distinct x y hy)
    · rcases hget x y hy with ⟨rfl, -, hm⟩ | ⟨-, hy⟩
      · rw [hm]
        exact (apart_nextMarkers (h.marking.distinct w v hv)).symm
      · exact h.marking.apart w v x y hv hy hne
  · intro marker u w v hu hv
    rcases hget w v hv with ⟨-, -, hm⟩ | ⟨-, hv⟩
    · rw [hm]
      exact outside_nextMarkers (h.marking.numbered marker u hu)
    · exact h.marking.foreign marker u w v hu hv
  · exact fun marker u hu =>
      Nat.lt_of_lt_of_le (h.marking.numbered marker u hu) (Nat.le_add_right _ 3)
  · intro marker u home hu hhome
    obtain ⟨v, d, hs, -⟩ := h.marking.homed marker u home hu hhome
    exact ⟨v, hput home.view v hs.live, hs.root_eq⟩
  · intro r d hd
    have ha := hadmits r d hd
    refine ⟨?_, ha.keeps, ha.known, ha.log, ha.takes, ha.noted⟩
    intro w v hv hroot
    rcases hget w v hv with ⟨rfl, hvb, hm⟩ | ⟨-, hv⟩
    · rw [hm]
      rw [hvb] at hroot
      exact hseats d (hroot ▸ hd)
    · exact ha.seats w v hv hroot

end Editor

namespace Document

variable {d : Document} {ids : ViewMarkers} {x : Extent}

theorem get?_addView_of_outside {id : MarkerId} (h : ids.Outside id) :
    (d.addView ids x).markers.get? id = d.markers.get? id := by
  simp only [addView, Table.get?_insert, if_neg h.point, if_neg h.low, if_neg h.high]

theorem seats_addView {n : MarkerId} (h : ids.Distinct n) (h1 : x.low ≤ x.point)
    (h2 : x.point ≤ x.high) (h3 : x.high ≤ d.length) : (d.addView ids x).Seats ids := by
  refine (seats_of_markers (d := d.addView ids x) (x := x) ?_ ?_ ?_ h1 h2 h3).1
  · simp only [addView, Table.get?_insert, if_neg h.high_ne.symm, if_neg h.low_ne.symm, if_true]
  · simp only [addView, Table.get?_insert, if_neg h.high_ne_low.symm, if_true]
  · simp only [addView, Table.get?_insert, if_true]

theorem kind_addView {id : MarkerId} {m : Marker} (h : (d.addView ids x).markers.get? id = some m)
    (hkind : m.kind = .user) : d.markers.get? id = some m := by
  simp only [addView, Table.get?_insert] at h
  repeat' split at h
  all_goals first | exact h | (cases h; cases hkind)

end Document

namespace Editor

variable {e e' : Editor} {root view : ViewId} {v : View} {d : Document}

theorem WellFormed.addRoot (h : e.WellFormed) (name : String) : (e.addRoot name).WellFormed := by
  have hfresh : e.documents.get? e.nextView = none := by
    cases hd : e.documents.get? e.nextView with
    | none => rfl
    | some d =>
        obtain ⟨v, hv, -⟩ := h.registry.owner e.nextView d hd
        exact absurd (h.registry.numbered e.nextView v hv) (Nat.lt_irrefl _)
  have hseats : (Document.empty.addView e.nextMarkers ⟨0, 0, 0⟩).Seats e.nextMarkers :=
    Document.seats_addView (distinct_nextMarkers e) (Nat.le_refl 0) (Nat.le_refl 0) (Nat.le_refl 0)
  have hnew : e.Admits e.nextView (Document.empty.addView e.nextMarkers ⟨0, 0, 0⟩) := by
    constructor
    case seats =>
      intro w v hv hroot
      obtain ⟨r, d, hs⟩ := h.registry.shows_of_live hv
      obtain rfl := hroot.symm.trans hs.root_eq
      rw [hs.document] at hfresh
      cases hfresh
    case keeps =>
      intro marker u w hu hhome
      obtain ⟨v, d, hs, -⟩ := h.marking.homed marker u _ hu hhome
      rw [hs.document] at hfresh
      cases hfresh
    case known =>
      intro marker m hm hkind
      have := Document.kind_addView hm hkind
      simp [Document.empty] at this
    case log => exact UndoLog.empty_wellFormed
    case takes => rfl
    case noted =>
      intro a ha
      simp [Document.addView, Document.empty, UndoLog.empty, UndoLog.records, Record.adjusted] at ha
  refine h.addView (fun b hb => ?_) ?_ ?_ ?_ ?_ ?_
  · cases hb
  · intro w hw
    cases hc : e.current with
    | none =>
        rw [hc, Option.none_or] at hw
        exact Or.inl (Option.some.inj hw).symm
    | some c =>
        rw [hc, Option.some_or] at hw
        exact Or.inr hw
  · cases e.current <;> simp
  · intro r
    rw [Table.get?_insert]
    by_cases hr : r = e.nextView
    · simp [hr]
    · simp [hr]
  · intro r d hd
    rw [Table.get?_insert] at hd
    split at hd
    · rename_i hr
      cases hd
      exact hr ▸ hnew
    · exact h.admits hd
  · intro d hd
    rw [Option.getD_none, Table.get?_insert_self] at hd
    cases hd
    exact hseats

theorem WellFormed.addIndirect (h : e.WellFormed) (hv : e.views.get? root = some v)
    (hb : v.base = none) (name : String) : (e.addIndirect root v.markers name).WellFormed := by
  obtain ⟨d, hd⟩ := h.registry.owned root v hv hb
  have ha := h.admits hd
  have hplace := ha.seats root v hv (by rw [hb, Option.getD_none])
  have hget :
      ∀ r, (e.documents.modify root fun d => d.addView e.nextMarkers (d.extent v.markers)).get? r =
        if r = root then some (d.addView e.nextMarkers (d.extent v.markers))
        else e.documents.get? r := by
    intro r
    rw [Table.get?_modify]
    split
    · rename_i hr
      rw [hr, hd, Option.map_some]
    · rfl
  refine h.addView ?_ (fun _ hw => Or.inr hw) ?_ ?_ ?_ ?_
  · intro r hr
    cases hr
    exact ⟨v, hv, hb⟩
  · intro hc
    have := h.registry.current_none hc root
    rw [hv] at this
    cases this
  · intro r
    rw [hget]
    by_cases hr : r = root
    · simp [hr, hd]
    · simp [hr]
  · intro r c hc
    rw [hget] at hc
    split at hc
    · rename_i hr
      cases hc
      subst hr
      constructor
      case seats =>
        intro w x hx hroot
        have hapart := apart_nextMarkers (h.marking.distinct w x hx)
        exact (ha.seats w x hx hroot).congr (Document.get?_addView_of_outside hapart.point)
          (Document.get?_addView_of_outside hapart.low)
          (Document.get?_addView_of_outside hapart.high) rfl
      case keeps =>
        intro marker u w hu hhome
        obtain ⟨p, hp, hle⟩ := ha.keeps marker u w hu hhome
        have houtside := outside_nextMarkers (h.marking.numbered marker u hu)
        exact ⟨p, by rw [Document.get?_addView_of_outside houtside, hp], hle⟩
      case known =>
        exact fun marker m hm hkind => ha.known marker m (Document.kind_addView hm hkind) hkind
      case log => exact ha.log
      case takes => exact ha.takes
      case noted => exact ha.noted
    · exact h.admits hc
  · intro c hc
    rw [Option.getD_some, hget, if_pos rfl] at hc
    cases hc
    exact Document.seats_addView (distinct_nextMarkers e) hplace.low_le hplace.le_high
      hplace.high_le

theorem get?_eraseAll {α : Type} (t : Table α) (ks : List Nat) (j : Nat) :
    (ks.foldl Table.erase t).get? j = if j ∈ ks then none else t.get? j := by
  induction ks generalizing t with
  | nil => simp
  | cons k ks ih =>
      rw [List.foldl_cons, ih, Table.get?_erase]
      by_cases hj : j ∈ ks
      · simp [hj]
      · by_cases hk : j = k <;> simp [hj, hk]

theorem mem_markersSetIn {marker : MarkerId} :
    marker ∈ e.markersSetIn view ↔ ∃ u, e.userMarkers.get? marker = some u ∧
    setIn view u = true := by
  rw [markersSetIn, Table.mem_keys]
  simp only [Table.get?_filter, Option.filter_eq_some_iff]

theorem setIn_eq_false {u : UserMarker} {home : MarkerHome} (hhome : u.home = some home)
    (h : setIn view u = false) : home.view ≠ view ∧ home.root ≠ view := by
  simpa [setIn, hhome] using h

theorem setIn_false_of_ne {u : UserMarker} {home : MarkerHome} (hhome : u.home = some home)
    (hview : home.view ≠ view) (hroot : home.root ≠ view) : setIn view u = false := by
  simp [setIn, hhome, hview, hroot]

/-- Markers keep their homes unless these were in the view that is removed. -/
theorem userMarkers_removeView {marker : MarkerId} {u : UserMarker} :
    (e.removeView view).userMarkers.get? marker = some u ↔
    ∃ u', e.userMarkers.get? marker = some u' ∧
      (if setIn view u' then { u' with home := none } else u') = u := by
  rw [removeView, Table.get?_map]
  exact Option.map_eq_some_iff

theorem home_of_removeView {marker : MarkerId} {u : UserMarker} {home : MarkerHome}
    (hu : (e.removeView view).userMarkers.get? marker = some u) (hhome : u.home = some home) :
    e.userMarkers.get? marker = some u ∧ setIn view u = false := by
  obtain ⟨u', hu', rfl⟩ := userMarkers_removeView.mp hu
  cases hset : setIn view u' with
  | true =>
      rw [hset, if_pos rfl] at hhome
      cases hhome
  | false =>
      rw [if_neg Bool.false_ne_true]
      exact ⟨hu', hset⟩

theorem removeView_of_home {marker : MarkerId} {u : UserMarker}
    (hu : e.userMarkers.get? marker = some u) (hset : setIn view u = false) :
    (e.removeView view).userMarkers.get? marker = some u :=
  userMarkers_removeView.mpr ⟨u, hu, by rw [hset, if_neg Bool.false_ne_true]⟩

theorem exists_removeView {marker : MarkerId} (h : ∃ u, e.userMarkers.get? marker = some u) :
    ∃ u, (e.removeView view).userMarkers.get? marker = some u := by
  obtain ⟨u, hu⟩ := h
  exact ⟨_, userMarkers_removeView.mpr ⟨u, hu, rfl⟩⟩

theorem views_removeView {w : ViewId} {v : View} :
    (e.removeView view).views.get? w = some v ↔ w ≠ view ∧ e.views.get? w = some v := by
  rw [removeView, Table.get?_erase]
  by_cases hw : w = view <;> simp [hw]

/-- A view that no other one is indirect to may be removed, as long as the documents left are just
those of the roots left and stay admitted. -/
theorem WellFormed.removeView (h : e.WellFormed) {documents : Table Document}
    (halone : ∀ w v, e.views.get? w = some v → v.base ≠ some view)
    (hdocuments : ∀ r, (∃ d, documents.get? r = some d) ↔
      (∃ d, e.documents.get? r = some d) ∧ r ≠ view)
    (hadmits : ∀ r d, documents.get? r = some d → (e.removeView view).Admits r d) :
    WellFormed { e.removeView view with documents := documents } := by
  refine wellFormed_of_admits ?_ ?_ ?_ ?_ ?_ ?_ fun r d hd => (hadmits r d hd).recast rfl rfl
  · constructor
    case owned =>
      intro r v hv hb
      obtain ⟨hr, hv⟩ := views_removeView.mp hv
      exact (hdocuments r).mpr ⟨h.registry.owned r v hv hb, hr⟩
    case owner =>
      intro r d hd
      obtain ⟨⟨c, hc⟩, hr⟩ := (hdocuments r).mp ⟨d, hd⟩
      obtain ⟨v, hv, hb⟩ := h.registry.owner r c hc
      exact ⟨v, views_removeView.mpr ⟨hr, hv⟩, hb⟩
    case based =>
      intro w v r hv hb
      obtain ⟨-, hv⟩ := views_removeView.mp hv
      obtain ⟨x, hx, hxb⟩ := h.registry.based w v r hv hb
      have hr : r ≠ view := fun hr => halone w v hv (hr ▸ hb)
      exact ⟨x, views_removeView.mpr ⟨hr, hx⟩, hxb⟩
    case numbered =>
      intro w v hv
      exact h.registry.numbered w v (views_removeView.mp hv).2
    case current_live =>
      intro w hw
      simp only [Editor.removeView] at hw
      split at hw
      · exact Table.mem_keys.mp (List.mem_of_mem_head? (Option.mem_def.mpr hw))
      · rename_i hne
        obtain ⟨v, hv⟩ := h.registry.current_live w hw
        have hwv : w ≠ view := fun hwv => hne (hwv ▸ hw)
        exact ⟨v, views_removeView.mpr ⟨hwv, hv⟩⟩
    case current_none =>
      intro hc w
      simp only [Editor.removeView] at hc ⊢
      split at hc
      · cases hw : (e.views.erase view).get? w with
        | none => rfl
        | some v =>
            have hkeys : w ∈ (e.views.erase view).keys := Table.mem_keys.mpr ⟨v, hw⟩
            rw [List.head?_eq_none_iff.mp hc] at hkeys
            cases hkeys
      · rw [Table.get?_erase, h.registry.current_none hc w]
        split <;> rfl
  · intro w v hv
    exact h.marking.distinct w v (views_removeView.mp hv).2
  · intro w v x y hv hy hne
    exact h.marking.apart w v x y (views_removeView.mp hv).2 (views_removeView.mp hy).2 hne
  · intro marker u w v hu hv
    obtain ⟨u', hu', -⟩ := userMarkers_removeView.mp hu
    exact h.marking.foreign marker u' w v hu' (views_removeView.mp hv).2
  · intro marker u hu
    obtain ⟨u', hu', -⟩ := userMarkers_removeView.mp hu
    exact h.marking.numbered marker u' hu'
  · intro marker u home hu hhome
    obtain ⟨hu, hset⟩ := home_of_removeView hu hhome
    obtain ⟨v, d, hs, -⟩ := h.marking.homed marker u home hu hhome
    exact ⟨v, views_removeView.mpr ⟨(setIn_eq_false hhome hset).1, hs.live⟩, hs.root_eq⟩

/-- A document that no marker of the view lies in stays admitted when the view is removed. -/
theorem WellFormed.admits_removeView (h : e.WellFormed) {r : ViewId} {c : Document}
    (hv : e.views.get? view = some v) (hd : e.documents.get? r = some c)
    (hr : r ≠ v.base.getD view) (hne : r ≠ view) : (e.removeView view).Admits r c := by
  have ha := h.admits hd
  constructor
  case seats =>
    intro w x hx hroot
    exact ha.seats w x (views_removeView.mp hx).2 hroot
  case keeps =>
    intro marker u w hu hhome
    exact ha.keeps marker u w (home_of_removeView hu hhome).1 hhome
  case known =>
    intro marker m hm hkind
    obtain ⟨u, w, hu, hhome⟩ := ha.known marker m hm hkind
    have hw : w ≠ view := by
      rintro rfl
      obtain ⟨x, d, hs, -⟩ := h.marking.homed marker u _ hu hhome
      obtain rfl := Option.some.inj (hs.live.symm.trans hv)
      exact hr hs.root_eq.symm
    exact ⟨u, w, removeView_of_home hu (setIn_false_of_ne hhome hw hne), hhome⟩
  case log => exact ha.log
  case takes => exact ha.takes
  case noted => exact fun a hmem => exists_removeView (ha.noted a hmem)

theorem WellFormed.removeIndirect (h : e.WellFormed) (hv : e.views.get? view = some v)
    (hb : v.base = some root) : (e.removeIndirect view root v.markers).WellFormed := by
  obtain ⟨x, hx, hxb⟩ := h.registry.based view v root hv hb
  have hne : root ≠ view := by
    rintro rfl
    rw [Option.some.inj (hx.symm.trans hv), hb] at hxb
    cases hxb
  refine h.removeView ?_ ?_ ?_
  · intro w y hy hyb
    obtain ⟨z, hz, hzb⟩ := h.registry.based w y view hy hyb
    rw [Option.some.inj (hz.symm.trans hv), hb] at hzb
    cases hzb
  · intro r
    rw [show (e.removeView view).documents = e.documents from rfl, Table.get?_modify]
    have hroot : ∀ d, e.documents.get? r = some d → r ≠ view := by
      rintro d hd rfl
      obtain ⟨y, hy, hyb⟩ := h.registry.owner r d hd
      rw [Option.some.inj (hy.symm.trans hv), hb] at hyb
      cases hyb
    cases hd : e.documents.get? r with
    | none => by_cases hr : r = root <;> simp [hr]
    | some d => by_cases hr : r = root <;> simp [hr, hne, hroot d hd]
  · intro r c hc
    rw [show (e.removeView view).documents = e.documents from rfl, Table.get?_modify] at hc
    split at hc
    · rename_i hr
      subst hr
      obtain ⟨d, hd, rfl⟩ := Option.map_eq_some_iff.mp hc
      have ha := h.admits hd
      have hget :
          ∀ id, ((e.markersSetIn view).foldl Table.erase (d.removeView v.markers).markers).get? id =
          if id ∈ e.markersSetIn view then none
          else if id = v.markers.high then none
          else if id = v.markers.low then none
          else if id = v.markers.point then none else d.markers.get? id := by
        intro id
        rw [get?_eraseAll, Document.removeView]
        simp only [Table.get?_erase]
      have hframe : ∀ id, v.markers.Outside id → id ∉ e.markersSetIn view →
          ((e.markersSetIn view).foldl Table.erase (d.removeView v.markers).markers).get? id =
            d.markers.get? id := by
        intro id hout hid
        rw [hget, if_neg hid, if_neg hout.high, if_neg hout.low, if_neg hout.point]
      constructor
      case seats =>
        intro w y hy hroot
        obtain ⟨hw, hy⟩ := views_removeView.mp hy
        have hapart := h.marking.apart view v w y hv hy hw.symm
        have hforeign : ∀ id, ¬ y.markers.Outside id → id ∉ e.markersSetIn view := by
          intro id hout hid
          obtain ⟨u, hu, -⟩ := mem_markersSetIn.mp hid
          exact hout (h.marking.foreign id u w y hu hy)
        exact (ha.seats w y hy hroot).congr
          (hframe _ hapart.point (hforeign _ fun ho => ho.point rfl))
          (hframe _ hapart.low (hforeign _ fun ho => ho.low rfl))
          (hframe _ hapart.high (hforeign _ fun ho => ho.high rfl)) rfl
      case keeps =>
        intro marker u w hu hhome
        obtain ⟨hu, hset⟩ := home_of_removeView hu hhome
        obtain ⟨p, hp, hle⟩ := ha.keeps marker u w hu hhome
        have hid : marker ∉ e.markersSetIn view := by
          intro hid
          obtain ⟨u', hu', hset'⟩ := mem_markersSetIn.mp hid
          rw [Option.some.inj (hu'.symm.trans hu), hset] at hset'
          cases hset'
        exact ⟨p, by rw [hframe marker (h.marking.foreign marker u view v hu hv) hid, hp], hle⟩
      case known =>
        intro marker m hm hkind
        rw [show ((e.markersSetIn view).foldl Table.erase (d.removeView v.markers).markers).get?
          marker = _
          from hget marker] at hm
        repeat' split at hm
        any_goals cases hm
        obtain ⟨u, w, hu, hhome⟩ := ha.known marker m hm hkind
        have hset : setIn view u = false := by
          cases hset : setIn view u with
          | false => rfl
          | true => exact absurd (mem_markersSetIn.mpr ⟨u, hu, hset⟩) ‹_›
        exact ⟨u, w, removeView_of_home hu hset, hhome⟩
      case log => exact ha.log
      case takes => exact ha.takes
      case noted => exact fun a hmem => exists_removeView (ha.noted a hmem)
    · rename_i hr
      apply h.admits_removeView hv hc (by rw [hb, Option.getD_some]; exact hr)
      rintro rfl
      obtain ⟨y, hy, hyb⟩ := h.registry.owner r c hc
      rw [Option.some.inj (hy.symm.trans hv), hb] at hyb
      cases hyb

theorem WellFormed.removeRoot (h : e.WellFormed) (hv : e.views.get? root = some v)
    (hb : v.base = none) (halone : ∀ w x, e.views.get? w = some x → x.base ≠ some root)
    (d : Document) : (e.removeRoot root d).WellFormed := by
  have hw : WellFormed { e.removeView root with documents := e.documents.erase root } := by
    refine h.removeView halone ?_ ?_
    · intro r
      rw [Table.get?_erase]
      by_cases hr : r = root <;> simp [hr]
    · intro r c hc
      rw [Table.get?_erase] at hc
      split at hc
      · cases hc
      · rename_i hr
        exact h.admits_removeView hv hc (by rw [hb, Option.getD_none]; exact hr) hr
  exact hw.congr rfl rfl rfl rfl rfl rfl

end Editor

end Editing
