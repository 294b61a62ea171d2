import Editing.Proofs.Session.Operations
import Editing.Proofs.Session.Overlaying

/-!
# What acts leave alone

A root is left alone when its document stays as it is, its views stay as they are, and no marker or
overlay comes to it or goes from it. Whether a view, a marker or an overlay is one of the root stays
the same then. So an act that is composed of others leaves the root alone if each of them does in
the session where its turn comes, and all that has to be known there was known at the start.
-/

namespace Editing

namespace Editor

variable {e e' e'' : Editor} {root r view : ViewId} {marker : MarkerId} {overlay : OverlayId}

/-- The marker was set in a view of the root. -/
def Homed (e : Editor) (root : ViewId) (marker : MarkerId) : Prop :=
  ∃ u home, e.userMarkers.get? marker = some u ∧ u.home = some home ∧ home.root = root

/-- A root is the same in two editors: its document with text, markers, overlays, log, ticks and
file, its views, and which markers and overlays of the user are there. -/
structure Untouched (root : ViewId) (e e' : Editor) : Prop where
  document : e'.documents.get? root = e.documents.get? root
  views : ∀ view v, v.base.getD view = root →
    (e'.views.get? view = some v ↔ e.views.get? view = some v)
  markers : ∀ marker u home, u.home = some home → home.root = root →
    (e'.userMarkers.get? marker = some u ↔ e.userMarkers.get? marker = some u)
  overlays : ∀ overlay, e'.overlayHomes.get? overlay = some (.attached root) ↔
    e.overlayHomes.get? overlay = some (.attached root)

theorem rootOf_iff :
    e.rootOf view = .ok root ↔ ∃ v, e.views.get? view = some v ∧ v.base.getD view = root := by
  cases hv : e.views.get? view with
  | none => simp [rootOf_of_dead hv]
  | some v =>
      rw [rootOf, view_of_get hv]
      constructor
      · intro h
        exact ⟨v, rfl, Except.ok.inj h⟩
      · rintro ⟨w, hw, hroot⟩
        cases hw
        exact congrArg Except.ok hroot

theorem ne_of_rootOf (h : e.rootOf view ≠ .ok root) (hr : e.rootOf view = .ok r) : r ≠ root := by
  rintro rfl
  exact h hr

theorem ne_root (hroot : e.rootOf root = .ok root) (h : e.rootOf view ≠ .ok root) :
    view ≠ root := by
  rintro rfl
  exact h hroot

/-- The root of a view of another root is not the root either. -/
theorem Registry.rootOf_ne (hw : e.Registry) (h : e.rootOf view ≠ .ok root)
    (hr : e.rootOf view = .ok r) : e.rootOf r ≠ .ok root := by
  obtain ⟨v, d, hs⟩ := hw.shows_of_rootOf hr
  obtain ⟨w, hw, -⟩ := hw.shows_root hs.document
  rw [hw.rootOf_eq]
  exact fun heq => ne_of_rootOf h hr (Except.ok.inj heq)

namespace Untouched

theorem refl (root : ViewId) (e : Editor) : e.Untouched root e :=
  ⟨rfl, fun _ _ _ => Iff.rfl, fun _ _ _ _ _ => Iff.rfl, fun _ => Iff.rfl⟩

theorem trans (h : e.Untouched root e') (h' : e'.Untouched root e'') : e.Untouched root e'' where
  document := h'.document.trans h.document
  views view v hv := (h'.views view v hv).trans (h.views view v hv)
  markers marker u home hu hroot :=
    (h'.markers marker u home hu hroot).trans (h.markers marker u home hu hroot)
  overlays overlay := (h'.overlays overlay).trans (h.overlays overlay)

theorem rootOf_iff (h : e.Untouched root e') :
    e'.rootOf view = .ok root ↔ e.rootOf view = .ok root := by
  rw [Editor.rootOf_iff, Editor.rootOf_iff]
  exact exists_congr fun v => and_congr_left (h.views view v)

theorem homed_iff (h : e.Untouched root e') : e'.Homed root marker ↔ e.Homed root marker :=
  exists_congr fun u => exists_congr fun home =>
    and_congr_left fun ⟨hhome, hroot⟩ => h.markers marker u home hhome hroot

theorem elsewhere (h : e.Untouched root e') (hview : e.rootOf view ≠ .ok root) :
    e'.rootOf view ≠ .ok root := mt h.rootOf_iff.mp hview

theorem unhomed (h : e.Untouched root e') (hm : ¬e.Homed root marker) : ¬e'.Homed root marker :=
  mt h.homed_iff.mp hm

theorem unattached (h : e.Untouched root e')
    (ho : e.overlayHomes.get? overlay ≠ some (.attached root)) :
    e'.overlayHomes.get? overlay ≠ some (.attached root) := mt (h.overlays overlay).mp ho

/-! ## Parts of an editor -/

theorem of_parts (hdocuments : e'.documents.get? root = e.documents.get? root)
    (hviews : e'.views = e.views) (hmarkers : e'.userMarkers = e.userMarkers)
    (hoverlays : e'.overlayHomes = e.overlayHomes) : e.Untouched root e' where
  document := hdocuments
  views _ _ _ := by rw [hviews]
  markers _ _ _ _ _ := by rw [hmarkers]
  overlays _ := by rw [hoverlays]

/-- The document of another root changes. -/
theorem amend (h : r ≠ root) (e : Editor) (f : Document → Document) :
    e.Untouched root { e with documents := e.documents.modify r f } :=
  of_parts ((Table.get?_modify _ _ _ _).trans (if_neg h.symm)) rfl rfl rfl

/-- What is known of a marker changes that is not in the root before or after. -/
theorem mark (h : ¬e.Homed root marker) {f : UserMarker → UserMarker}
    (hf : ∀ u home, (f u).home = some home → home.root = root → u.home = some home) :
    e.Untouched root { e with userMarkers := e.userMarkers.modify marker f } where
  document := rfl
  views _ _ _ := Iff.rfl
  markers id u home hhome hroot := by
    rw [Table.get?_modify]
    split
    · rename_i hid
      subst hid
      constructor
      · intro hu
        obtain ⟨u', hu', rfl⟩ := Option.map_eq_some_iff.mp hu
        exact absurd ⟨u', home, hu', hf u' home hhome hroot, hroot⟩ h
      · exact fun hu => absurd ⟨u, home, hu, hhome, hroot⟩ h
    · exact Iff.rfl
  overlays _ := Iff.rfl

/-- An overlay that is not in the root gets another home. -/
theorem rehouse (h : e.overlayHomes.get? overlay ≠ some (.attached root)) {home : OverlayHome}
    (hhome : home ≠ .attached root) (next : OverlayId) :
    e.Untouched root
      { e with overlayHomes := e.overlayHomes.insert overlay home, nextOverlay := next } where
  document := rfl
  views _ _ _ := Iff.rfl
  markers _ _ _ _ _ := Iff.rfl
  overlays id := by
    rw [Table.get?_insert]
    split
    · rename_i hid
      subst hid
      constructor
      · exact fun hid => absurd (Option.some.inj hid) hhome
      · exact fun hid => absurd hid h
    · exact Iff.rfl

/-- Overlays that are not in the root are detached. -/
theorem detachAll {os : Overlays}
    (h : ∀ id o, os.get? id = some o → e.overlayHomes.get? id ≠ some (.attached root)) :
    e.Untouched root { e with overlayHomes := OverlayHome.detachAll e.overlayHomes os } where
  document := rfl
  views _ _ _ := Iff.rfl
  markers _ _ _ _ _ := Iff.rfl
  overlays id := by
    rw [OverlayHome.get?_detachAll]
    cases ho : os.get? id with
    | none => exact Iff.rfl
    | some o =>
        constructor
        · intro hid
          cases hid
        · exact fun hid => absurd hid (h id o ho)

end Untouched

/-! ## Views that go -/

/-- A view is none of the root's, and no marker of the root was set in it. -/
structure Aloof (e : Editor) (root view : ViewId) : Prop where
  view_ne : view ≠ root
  rootOf_ne : e.rootOf view ≠ .ok root
  markers : ∀ marker u home, e.userMarkers.get? marker = some u → u.home = some home →
    home.root = root → home.view ≠ view

theorem WellFormed.aloof (hw : e.WellFormed) (hroot : e.rootOf root = .ok root)
    (h : e.rootOf view ≠ .ok root) : e.Aloof root view where
  view_ne := ne_root hroot h
  rootOf_ne := h
  markers marker u home hu hhome hr hview := by
    obtain ⟨v, d, hs, -⟩ := hw.marking.homed marker u home hu hhome
    exact h (by rw [← hview, hs.rootOf_eq, hr])

theorem Untouched.aloof (h : e.Untouched root e') (ha : e.Aloof root view) :
    e'.Aloof root view where
  view_ne := ha.view_ne
  rootOf_ne := h.elsewhere ha.rootOf_ne
  markers marker u home hu hhome hr :=
    ha.markers marker u home ((h.markers marker u home hhome hr).mp hu) hhome hr

namespace Aloof

theorem removeView (h : e.Aloof root view) : e.Untouched root (e.removeView view) where
  document := rfl
  views w v hw := by
    change (e.views.erase view).get? w = some v ↔ _
    rw [Table.get?_erase]
    split
    · rename_i heq
      subst heq
      constructor
      · intro hv
        cases hv
      · exact fun hv => absurd (rootOf_iff.mpr ⟨v, hv, hw⟩) h.rootOf_ne
    · exact Iff.rfl
  markers marker u home hhome hroot := by
    change (e.userMarkers.map _).get? marker = some u ↔ _
    rw [Table.get?_map]
    constructor
    · intro hu
      obtain ⟨u', hu', heq⟩ := Option.map_eq_some_iff.mp hu
      split at heq
      · rw [← heq] at hhome
        cases hhome
      · rw [hu', heq]
    · intro hu
      have hview := h.markers marker u home hu hhome hroot
      have hset : setIn view u = false := by
        simp [setIn, hhome, hview, hroot, h.view_ne.symm]
      rw [hu, Option.map_some, hset, if_neg Bool.false_ne_true]
  overlays _ := Iff.rfl

theorem removeIndirect (h : e.Aloof root view) (hr : r ≠ root) (ids : ViewMarkers) :
    e.Untouched root (e.removeIndirect view r ids) :=
  h.removeView.trans (.amend hr _ _)

end Aloof

theorem untouched_removeAll (hr : r ≠ root) (xs : List (ViewId × ViewMarkers))
    (h : ∀ x ∈ xs, e.Aloof root x.1) :
    e.Untouched root (xs.foldl (fun e x => e.removeIndirect x.1 r x.2) e) := by
  induction xs generalizing e with
  | nil => exact .refl root e
  | cons x xs ih =>
      have hfirst := (h x List.mem_cons_self).removeIndirect hr x.2
      exact hfirst.trans (ih fun y hy => hfirst.aloof (h y (List.mem_cons_of_mem x hy)))

theorem WellFormed.removeIndirects (hw : e.WellFormed) (hroot : e.rootOf root = .ok root)
    (hr : r ≠ root) : e.Untouched root (e.removeIndirects r) := by
  apply untouched_removeAll hr
  intro x hx
  obtain ⟨v, hv, hb, -⟩ := Act.mem_indirectTo.mp hx
  refine hw.aloof hroot fun heq => ?_
  obtain ⟨w, hw, hwroot⟩ := rootOf_iff.mp heq
  obtain rfl := Option.some.inj (hv.symm.trans hw)
  rw [hb] at hwroot
  exact hr hwroot

theorem Aloof.removeRoot (h : e.Aloof root r) {d : Document}
    (hd : ∀ id o, d.overlays.get? id = some o → e.overlayHomes.get? id ≠ some (.attached root)) :
    e.Untouched root (e.removeRoot r d) := by
  have hgone : (e.removeView r).Untouched root
      { e.removeView r with documents := e.documents.erase r } :=
    .of_parts (Table.get?_erase_of_ne _ h.view_ne.symm) rfl rfl rfl
  exact (h.removeView.trans hgone).trans (.detachAll hd)

/-- The overlays in the document of one root are in no other one. -/
theorem Overlaying.apart (h : e.Overlaying) (hr : r ≠ root) {d : Document}
    (hd : e.documents.get? r = some d) :
    ∀ id o, d.overlays.get? id = some o → e.overlayHomes.get? id ≠ some (.attached root) := by
  intro id o ho hhome
  exact hr (h.unique ⟨d, o, hd, ho⟩ ((h.attached id root).mp hhome))

/-! ## Views, markers and overlays that come -/

theorem untouched_addView (hroot : root < e.nextView) (hnew : e.views.get? e.nextView = none)
    (name : String) {base : Option ViewId} (hb : base ≠ some root) :
    e.Untouched root (e.addView name base) where
  document := rfl
  views w v hw := by
    change (e.views.insert e.nextView _).get? w = some v ↔ _
    rw [Table.get?_insert]
    split
    · rename_i heq
      subst heq
      constructor
      · intro hv
        cases hv
        cases base with
        | none => exact absurd hw (Nat.ne_of_gt hroot)
        | some r => exact absurd (congrArg some hw) hb
      · intro hv
        rw [hnew] at hv
        cases hv
    · exact Iff.rfl
  markers _ _ _ _ _ := Iff.rfl
  overlays _ := Iff.rfl

theorem Registry.views_nextView (h : e.Registry) : e.views.get? e.nextView = none := by
  rw [Option.eq_none_iff_forall_ne_some]
  exact fun v hv => Nat.lt_irrefl _ (h.numbered e.nextView v hv)

theorem untouched_makeMarker (hm : e.Marking) :
    e.Untouched root
      { e with
        userMarkers := e.userMarkers.insert e.nextMarker ⟨none, false⟩
        nextMarker := e.nextMarker + 1 } where
  document := rfl
  views _ _ _ := Iff.rfl
  markers marker u home hhome _ := by
    rw [Table.get?_insert]
    split
    · rename_i heq
      subst heq
      constructor
      · intro hu
        cases hu
        cases hhome
      · exact fun hu => absurd (hm.numbered _ u hu) (Nat.lt_irrefl _)
    · exact Iff.rfl
  overlays _ := Iff.rfl

end Editor

end Editing
