import Editing.Proofs.Session.Lasting
import Mathlib.Data.List.Pairwise

/-!
# Where markers are

Where a marker of the user is gets kept twice: as its home, and among the markers of a document. The
two say the same at every moment of a run. One counter numbers these markers and those that hold the
points and bounds of views, and no number ever serves for both.
-/

namespace Editing

namespace Document

variable {b c d : Document} {id : MarkerId}

/-- The markers of views in a document were there in another one. -/
def ViewsFrom (c d : Document) : Prop :=
  ∀ id m, c.markers.get? id = some m → m.kind = .view →
    ∃ m', d.markers.get? id = some m' ∧ m'.kind = .view

namespace ViewsFrom

theorem of_markers (h : c.markers = d.markers) : c.ViewsFrom d :=
  fun _ m hm hkind => ⟨m, h ▸ hm, hkind⟩

theorem trans (h : c.ViewsFrom d) (h' : d.ViewsFrom b) : c.ViewsFrom b := by
  intro id m hm hkind
  obtain ⟨m', hm', hkind'⟩ := h id m hm hkind
  exact h' id m' hm' hkind'

/-- Markers may be put elsewhere, as long as they stay what they are. -/
theorem of_map {f : Marker → Marker} (hf : ∀ m, (f m).kind = m.kind)
    (h : c.markers = d.markers.map f) : c.ViewsFrom d := by
  intro id m hm hkind
  rw [h, Table.get?_map] at hm
  obtain ⟨m', hm', rfl⟩ := Option.map_eq_some_iff.mp hm
  exact ⟨m', hm', (hf m').symm.trans hkind⟩

theorem modify (d : Document) (marker : MarkerId) {f : Marker → Marker}
    (hf : ∀ m, (f m).kind = m.kind) :
    ViewsFrom { d with markers := d.markers.modify marker f } d := by
  intro id m hm hkind
  change (d.markers.modify marker f).get? id = some m at hm
  rw [Table.get?_modify] at hm
  split at hm
  · obtain ⟨m', hm', rfl⟩ := Option.map_eq_some_iff.mp hm
    exact ⟨m', hm', (hf m').symm.trans hkind⟩
  · exact ⟨m, hm, hkind⟩

theorem setPosition (d : Document) (marker : MarkerId) (pos : Nat) :
    (d.setPosition marker pos).ViewsFrom d := modify d marker fun _ => rfl

theorem erase (d : Document) (marker : MarkerId) :
    ViewsFrom { d with markers := d.markers.erase marker } d := by
  intro id m hm hkind
  change (d.markers.erase marker).get? id = some m at hm
  rw [Table.get?_erase] at hm
  split at hm
  · cases hm
  · exact ⟨m, hm, hkind⟩

theorem eraseAll (d : Document) (markers : List MarkerId) :
    ViewsFrom { d with markers := markers.foldl Table.erase d.markers } d := by
  intro id m hm hkind
  change (markers.foldl Table.erase d.markers).get? id = some m at hm
  rw [Editor.get?_eraseAll] at hm
  split at hm
  · cases hm
  · exact ⟨m, hm, hkind⟩

theorem removeView (d : Document) (ids : ViewMarkers) : (d.removeView ids).ViewsFrom d :=
  (erase _ ids.high).trans ((erase _ ids.low).trans (erase d ids.point))

theorem insertUser (d : Document) (marker : MarkerId) (pos : Nat) (advances : Bool) :
    ViewsFrom { d with markers := d.markers.insert marker ⟨pos, advances, .user⟩ } d := by
  intro id m hm hkind
  change (d.markers.insert marker ⟨pos, advances, .user⟩).get? id = some m at hm
  rw [Table.get?_insert] at hm
  split at hm
  · cases hm
    cases hkind
  · exact ⟨m, hm, hkind⟩

theorem apply (d : Document) (c : Change) : (d.apply c).ViewsFrom d := by
  cases c with
  | insert pos text => exact of_map (f := (·.afterInsert pos text.length)) (fun _ => rfl) rfl
  | delete start stop => exact of_map (f := (·.afterDelete start stop)) (fun _ => rfl) rfl
  | property start stop key value => exact of_markers rfl

theorem readjustAll (as : List MarkerAdjustment) (d : Document) :
    (as.foldl Document.readjust d).ViewsFrom d := by
  induction as generalizing d with
  | nil => exact of_markers rfl
  | cons a as ih =>
      rw [List.foldl_cons]
      obtain ⟨pos, heq | heq⟩ := d.readjust_eq a
      · rw [heq]
        exact ih d
      · rw [heq]
        exact (ih _).trans (setPosition d a.marker pos)

end ViewsFrom

end Document

namespace Editor

variable {e e' e'' : Editor} {root : ViewId} {id : MarkerId}

/-- A marker of the user has the number. -/
def Knows (e : Editor) (id : MarkerId) : Prop := ∃ u, e.userMarkers.get? id = some u

/-- A marker of the kind lies in the document of the root. -/
def Lies (e : Editor) (kind : MarkerKind) (root : ViewId) (id : MarkerId) : Prop :=
  ∃ d m, e.documents.get? root = some d ∧ d.markers.get? id = some m ∧ m.kind = kind

/-! ## Numbers for markers -/

/-- Markers of the user stay known, and a number that is taken up for one of them or for a marker of
a view has not been given out before. -/
structure Numbers (e e' : Editor) : Prop where
  le : e.nextMarker ≤ e'.nextMarker
  kept : ∀ id, e.Knows id → e'.Knows id
  known : ∀ id, e'.Knows id → e.Knows id ∨ e.nextMarker ≤ id
  lies : ∀ root id, e'.Lies .view root id →
    e.Lies .view root id ∨ e.nextMarker ≤ id ∧ id < e'.nextMarker ∧ ¬e'.Knows id

namespace Numbers

theorem refl (e : Editor) : e.Numbers e :=
  ⟨Nat.le_refl _, fun _ => id, fun _ => Or.inl, fun _ _ => Or.inl⟩

theorem trans (h : e.Numbers e') (h' : e'.Numbers e'') : e.Numbers e'' where
  le := Nat.le_trans h.le h'.le
  kept id hid := h'.kept id (h.kept id hid)
  known id hid := by
    rcases h'.known id hid with hid | hnew
    · exact h.known id hid
    · exact Or.inr (Nat.le_trans h.le hnew)
  lies root id hid := by
    rcases h'.lies root id hid with hid | ⟨hnew, hlt, hnot⟩
    · rcases h.lies root id hid with hid | ⟨hnew, hlt, hnot⟩
      · exact Or.inl hid
      · refine Or.inr ⟨hnew, Nat.lt_of_lt_of_le hlt h'.le, fun hknown => ?_⟩
        rcases h'.known id hknown with hknown | hle
        · exact hnot hknown
        · exact absurd hlt (Nat.not_lt.mpr hle)
    · exact Or.inr ⟨Nat.le_trans h.le hnew, hlt, hnot⟩

/-- When no number has been given out, the same markers are known. -/
theorem knows_iff (h : e.Numbers e') (hm : e'.Marking) (hnext : e'.nextMarker = e.nextMarker)
    (id : MarkerId) : e'.Knows id ↔ e.Knows id := by
  refine ⟨fun hid => ?_, h.kept id⟩
  rcases h.known id hid with hid | hle
  · exact hid
  · obtain ⟨u, hu⟩ := hid
    exact absurd (hnext ▸ hm.numbered id u hu) (Nat.not_lt.mpr hle)

/-- What is done to an editor besides its documents and its markers. -/
theorem besides (hdocuments : e'.documents = e.documents)
    (husers : ∀ id, e'.Knows id ↔ e.Knows id) (hnext : e'.nextMarker = e.nextMarker) :
    e.Numbers e' where
  le := Nat.le_of_eq hnext.symm
  kept id := (husers id).mpr
  known id hid := Or.inl ((husers id).mp hid)
  lies root id hid := by
    unfold Lies at hid
    rw [hdocuments] at hid
    exact Or.inl hid

/-- Documents change or go, and no marker of a view comes. -/
theorem amend (husers : ∀ id, e'.Knows id ↔ e.Knows id) (hnext : e'.nextMarker = e.nextMarker)
    (hdocuments : ∀ root c, e'.documents.get? root = some c →
      ∃ d, e.documents.get? root = some d ∧ c.ViewsFrom d) : e.Numbers e' where
  le := Nat.le_of_eq hnext.symm
  kept id := (husers id).mpr
  known id hid := Or.inl ((husers id).mp hid)
  lies root id hid := by
    obtain ⟨c, m, hc, hm, hkind⟩ := hid
    obtain ⟨d, hd, hfrom⟩ := hdocuments root c hc
    obtain ⟨m', hm', hkind'⟩ := hfrom id m hm hkind
    exact Or.inl ⟨d, m', hd, hm', hkind'⟩

end Numbers

theorem knows_modify (e : Editor) (marker : MarkerId) (f : UserMarker → UserMarker)
    (id : MarkerId) :
    Knows { e with userMarkers := e.userMarkers.modify marker f } id ↔ e.Knows id := by
  unfold Knows
  rw [Table.get?_modify]
  split
  · cases e.userMarkers.get? id <;> simp
  · rfl

theorem knows_removeView (e : Editor) (view : ViewId) (id : MarkerId) :
    (e.removeView view).Knows id ↔ e.Knows id := by
  unfold Knows
  rw [removeView, Table.get?_map]
  cases e.userMarkers.get? id <;> simp

theorem mem_nextMarkers (h : ¬e.nextMarkers.Outside id) :
    e.nextMarker ≤ id ∧ id < e.nextMarker + 3 := by
  refine ⟨Nat.not_lt.mp fun hlt => h (outside_nextMarkers hlt), Nat.not_le.mp fun hle => h ?_⟩
  have hne : ∀ n k : Nat, n + 3 ≤ k → k ≠ n ∧ k ≠ n + 1 ∧ k ≠ n + 2 := by omega
  obtain ⟨h1, h2, h3⟩ := hne e.nextMarker id hle
  exact ⟨h1, h2, h3⟩

/-- A view gets markers with the next numbers, in a document that is new or was there. -/
theorem numbers_addView (hm : e.Marking) (root : ViewId) {d : Document} {x : Extent}
    (hd : (∀ id, d.markers.get? id = none) ∨ e.documents.get? root = some d)
    (husers : e'.userMarkers = e.userMarkers) (hnext : e'.nextMarker = e.nextMarker + 3)
    (hdocuments : ∀ r c, e'.documents.get? r = some c →
      e.documents.get? r = some c ∨ r = root ∧ c = d.addView e.nextMarkers x) :
    e.Numbers e' where
  le := hnext ▸ Nat.le_add_right _ 3
  kept id hid := by
    unfold Knows
    rw [husers]
    exact hid
  known id hid := by
    unfold Knows at hid
    rw [husers] at hid
    exact Or.inl hid
  lies r id hid := by
    obtain ⟨c, m, hc, hm', hkind⟩ := hid
    rcases hdocuments r c hc with hc | ⟨rfl, rfl⟩
    · exact Or.inl ⟨c, m, hc, hm', hkind⟩
    · by_cases hout : e.nextMarkers.Outside id
      · rw [Document.get?_addView_of_outside hout] at hm'
        rcases hd with hnone | hd
        · rw [hnone] at hm'
          cases hm'
        · exact Or.inl ⟨d, m, hd, hm', hkind⟩
      · obtain ⟨hle, hlt⟩ := mem_nextMarkers hout
        refine Or.inr ⟨hle, hnext ▸ hlt, ?_⟩
        rintro ⟨u, hu⟩
        rw [husers] at hu
        exact absurd (hm.numbered id u hu) (Nat.not_lt.mpr hle)

theorem numbers_makeMarker (hm : e.Marking) : e.Numbers { e with
    userMarkers := e.userMarkers.insert e.nextMarker ⟨none, false⟩
    nextMarker := e.nextMarker + 1 } where
  le := Nat.le_succ _
  kept id hid := by
    obtain ⟨u, hu⟩ := hid
    exact ⟨u, (Table.get?_insert_of_ne _ _ (Nat.ne_of_lt (hm.numbered id u hu))).trans hu⟩
  known id hid := by
    obtain ⟨u, hu⟩ := hid
    rw [Table.get?_insert] at hu
    split at hu
    · exact Or.inr (Nat.le_of_eq (Eq.symm ‹_›))
    · exact Or.inl ⟨u, hu⟩
  lies root id hid := Or.inl hid

end Editor

/-! ## Moves -/

namespace Session

open Document.ViewsFrom Editor

variable {s t : Session} {root : ViewId} {e : Editor}

theorem numbers_onDocument (h : e.Numbers s.editor) {f : Document → Document}
    (hf : ∀ d, (f d).ViewsFrom d) : e.Numbers (s.onDocument root f).editor := by
  refine h.trans (.amend (fun _ => Iff.rfl) rfl fun r c hc => ?_)
  rw [get?_onDocument] at hc
  split at hc
  · obtain ⟨d, hd, rfl⟩ := Option.map_eq_some_iff.mp hc
    exact ⟨d, hd, hf d⟩
  · exact ⟨c, hc, of_markers rfl⟩

/-- What is done to a document besides its markers. -/
theorem numbers_aside (h : e.Numbers s.editor) {f : Document → Document}
    (hf : ∀ d, (f d).markers = d.markers) : e.Numbers (s.onDocument root f).editor :=
  numbers_onDocument h fun d => of_markers (hf d)

theorem numbers_edit (h : e.Numbers s.editor) {f : Editor → Editor}
    (hf : ∀ e, (f e).documents = e.documents ∧ (∀ id, (f e).Knows id ↔ e.Knows id) ∧
      (f e).nextMarker = e.nextMarker) : e.Numbers (s.edit f).editor := by
  obtain ⟨hdocuments, husers, hnext⟩ := hf s.editor
  exact h.trans (.besides hdocuments husers hnext)

theorem numbers_lifted (s : Session) (marker : MarkerId) (home : Option MarkerHome) :
    s.editor.Numbers (s.lifted marker home).editor := by
  cases home with
  | none => exact .refl _
  | some home => exact numbers_onDocument (.refl _) fun d => erase d marker

theorem numbers_advancing (s : Session) (marker : MarkerId) (advances : Bool)
    (home : Option MarkerHome) : s.editor.Numbers (s.advancing marker advances home).editor := by
  cases home with
  | none => exact .refl _
  | some home => exact numbers_onDocument (.refl _) fun d => modify d marker fun _ => rfl

theorem numbers_modify (h : e.Numbers s.editor) (marker : MarkerId) (f : UserMarker → UserMarker) :
    e.Numbers (s.edit fun e =>
      { e with userMarkers := e.userMarkers.modify marker f }).editor :=
  numbers_edit h fun e => ⟨rfl, knows_modify e marker f, rfl⟩

theorem Move.numbers {mark : Option ViewId} (hmove : Move mark s t) (hw : s.editor.WellFormed) :
    s.editor.Numbers t.editor := by
  have hrefl := Numbers.refl s.editor
  cases hmove with
  | setLocks protocol => exact hrefl
  | setLimits limits => exact .besides rfl (fun _ => Iff.rfl) rfl
  | setInhibit inhibit => exact .besides rfl (fun _ => Iff.rfl) rfl
  | setReadOnly hv readOnly => exact .besides rfl (fun _ => Iff.rfl) rfl
  | setCurrent hv => exact .besides rfl (fun _ => Iff.rfl) rfl
  | addRoot name =>
      have hempty : ∀ id, Document.empty.markers.get? id = none := fun _ => rfl
      refine numbers_addView hw.marking s.editor.nextView (x := ⟨0, 0, 0⟩) (Or.inl hempty)
        rfl rfl fun r c hc => ?_
      rw [editor_edit, Editor.addRoot, Table.get?_insert] at hc
      split at hc
      · cases hc
        exact Or.inr ⟨‹_›, rfl⟩
      · exact Or.inl hc
  | @addIndirect _ base v hv hb name =>
      obtain ⟨d, hd⟩ := hw.registry.owned base v hv hb
      refine numbers_addView hw.marking base (x := d.extent v.markers) (Or.inr hd) rfl rfl
        fun r c hc => ?_
      rw [editor_edit, Editor.addIndirect, Table.get?_modify] at hc
      split at hc
      · rename_i hr
        rw [hr] at hc
        obtain ⟨d', hd', rfl⟩ := Option.map_eq_some_iff.mp hc
        obtain rfl := Option.some.inj (hd.symm.trans hd')
        exact Or.inr ⟨hr, rfl⟩
      · exact Or.inl hc
  | @removeIndirect _ view root v hv hb =>
      refine .amend (knows_removeView _ view) rfl fun r c hc => ?_
      rw [editor_edit, Editor.removeIndirect, Table.get?_modify] at hc
      split at hc
      · obtain ⟨d, hd, rfl⟩ := Option.map_eq_some_iff.mp hc
        exact ⟨d, hd, (eraseAll _ _).trans (removeView d v.markers)⟩
      · exact ⟨c, hc, of_markers rfl⟩
  | @removeRoot _ root v hv hb halone c d hd hc =>
      rw [editor_edit, editor_unlocked]
      refine .amend (knows_removeView _ root) rfl fun r c hc => ?_
      rw [Editor.removeRoot, Table.get?_erase] at hc
      split at hc
      · cases hc
      · exact ⟨c, hc, of_markers rfl⟩
  | narrow hs hpq hq =>
      exact numbers_onDocument hrefl fun d => (setPosition _ _ _).trans
        ((setPosition _ _ _).trans (setPosition d _ _))
  | widen hs =>
      exact numbers_onDocument hrefl fun d => (setPosition _ _ _).trans (setPosition d _ _)
  | goto hs hlow hhigh => exact numbers_onDocument hrefl fun d => setPosition d _ _
  | @change _ view root v d hs c hrange hvoid hgrant =>
      refine numbers_onDocument ?_ fun d => apply d c
      rw [editor_announced, editor_prepared]
      split
      · exact numbers_aside hrefl fun _ => rfl
      · exact hrefl
  | refused root path => exact hrefl
  | restore root start stop key value => exact hrefl
  | handler call => exact hrefl
  | log hd hl => exact numbers_aside hrefl fun _ => rfl
  | @readjust _ root as has => exact numbers_onDocument hrefl (readjustAll as)
  | setUnmodified hs =>
      rw [editor_unlocked]
      exact numbers_aside hrefl fun _ => rfl
  | setFile hs hfile hgrant =>
      rw [editor_unlocked]
      split
      · exact numbers_aside (by rw [editor_granted]; exact hrefl) fun _ => rfl
      · exact numbers_aside hrefl fun _ => rfl
  | makeMarker => exact numbers_makeMarker hw.marking
  | placeMarker hu hs pos =>
      exact numbers_modify (numbers_onDocument (numbers_lifted s _ _)
        fun d => insertUser d _ _ _) _ _
  | detachMarker hu => exact numbers_modify (numbers_lifted s _ _) _ _
  | setAdvances hu advances => exact numbers_modify (numbers_advancing s _ _ _) _ _
  | makeOverlay hs p q front rear =>
      refine numbers_edit (numbers_aside hrefl ?_) fun _ => ⟨rfl, fun _ => Iff.rfl, rfl⟩
      exact fun _ => rfl
  | setDetached ho p => exact .besides rfl (fun _ => Iff.rfl) rfl
  | setAttached hh hs ho p => exact numbers_aside hrefl fun _ => rfl
  | deleteOverlay hh hs ho =>
      refine numbers_edit (numbers_aside hrefl ?_) fun _ => ⟨rfl, fun _ => Iff.rfl, rfl⟩
      exact fun _ => rfl
  | deleteAllOverlays hs =>
      refine numbers_edit (numbers_aside hrefl ?_) fun _ => ⟨rfl, fun _ => Iff.rfl, rfl⟩
      exact fun _ => rfl
  | moveDetached ho hs p q =>
      refine numbers_edit (numbers_aside hrefl ?_) fun _ => ⟨rfl, fun _ => Iff.rfl, rfl⟩
      exact fun _ => rfl
  | moveAttached hh hold ho hs p q =>
      refine numbers_edit (numbers_aside (numbers_aside hrefl ?_) ?_)
        fun _ => ⟨rfl, fun _ => Iff.rfl, rfl⟩
      · exact fun _ => rfl
      · exact fun _ => rfl

theorem onward_numbers : Onward fun s t => s.editor.Numbers t.editor where
  refl s := .refl s.editor
  trans h h' := h.trans h'
  move hw hmove := hmove.numbers hw
  relog _ _ _ := numbers_aside (.refl _) fun _ => rfl

end Session

/-! ## Homes -/

namespace Editor

variable {e e' : Editor} {root : ViewId} {id : MarkerId} {u : UserMarker}

/-- No marker of a view in a document has the number of one of the user's. -/
def Parted (e : Editor) : Prop :=
  ∀ root id, e.Lies .view root id → id < e.nextMarker ∧ ¬e.Knows id

theorem Numbers.parted (h : e.Numbers e') (hs : e.Parted) : e'.Parted := by
  intro root id hlies
  rcases h.lies root id hlies with hlies | ⟨-, hlt, hnot⟩
  · obtain ⟨hlt, hnot⟩ := hs root id hlies
    refine ⟨Nat.lt_of_lt_of_le hlt h.le, fun hknown => ?_⟩
    rcases h.known id hknown with hknown | hle
    · exact hnot hknown
    · exact absurd hlt (Nat.not_lt.mpr hle)
  · exact ⟨hlt, hnot⟩

/-- Homes and documents say the same about every marker of the user, and the markers of views are
none of these. -/
structure Homing (e : Editor) : Prop where
  /-- A home is the only document where the marker lies, with the insertion type that is known. -/
  homed : ∀ id u root, e.userMarkers.get? id = some u →
    ((∃ view, u.home = some ⟨view, root⟩) ↔ root ∈ e.rootList ∧
      (∃ d p, e.documents.get? root = some d ∧
        d.markers.get? id = some ⟨p, u.advances, .user⟩) ∧
      ∀ kind r, e.Lies kind r id → r = root)
  /-- The view that a marker was set in is the root of its home or indirect to it. -/
  live : ∀ id u view root, e.userMarkers.get? id = some u → u.home = some ⟨view, root⟩ →
    e.baseOf view = .ok none ∧ view = root ∨ e.baseOf view = .ok (some root)
  homeless : ∀ id u, e.userMarkers.get? id = some u → u.home = none →
    ∀ kind root, ¬e.Lies kind root id
  known : ∀ root id, e.Lies .user root id → e.Knows id
  parted : ∀ root id, e.Lies .view root id → ¬e.Knows id
  foreign : ∀ view v id, e.views.get? view = some v → e.Knows id → v.markers.Outside id

/-- A marker of the user lies nowhere but at home. -/
theorem home_of_lies (hm : e.Marking) (hs : e.Parted) (hu : e.userMarkers.get? id = some u)
    {kind : MarkerKind} (h : e.Lies kind root id) : ∃ view, u.home = some ⟨view, root⟩ := by
  cases kind with
  | view => exact absurd ⟨u, hu⟩ (hs root id h).2
  | user =>
      obtain ⟨d, m, hd, hmarker, hkind⟩ := h
      obtain ⟨u', view, hu', hhome⟩ := hm.known root d id m hd hmarker hkind
      obtain rfl := Option.some.inj (hu.symm.trans hu')
      exact ⟨view, hhome⟩

theorem homing (hr : e.Registry) (hm : e.Marking) (hs : e.Parted) : e.Homing where
  homed id u root hu := by
    constructor
    · rintro ⟨view, hhome⟩
      obtain ⟨v, d, hshows, p, hp, -⟩ := hm.homed id u _ hu hhome
      refine ⟨Act.mem_rootList.mpr (hr.owner root d hshows.document), ⟨d, p, hshows.document, hp⟩,
        fun kind r hlies => ?_⟩
      obtain ⟨view', hhome'⟩ := home_of_lies hm hs hu hlies
      rw [hhome] at hhome'
      cases hhome'
      rfl
    · rintro ⟨-, ⟨d, p, hd, hp⟩, -⟩
      exact home_of_lies hm hs hu ⟨d, _, hd, hp, rfl⟩
  live id u view root hu hhome := by
    obtain ⟨v, d, hshows, -⟩ := hm.homed id u _ hu hhome
    have hbase : e.baseOf view = .ok v.base := by
      rw [baseOf, hshows.view_eq]
      rfl
    have hroot : v.base.getD view = root := hshows.root_eq
    rw [hbase]
    cases hb : v.base with
    | none =>
        rw [hb] at hroot
        exact Or.inl ⟨rfl, hroot⟩
    | some base =>
        rw [hb] at hroot
        exact Or.inr (congrArg (fun r => Except.ok (some r)) hroot)
  homeless id u hu hhome kind root hlies := by
    obtain ⟨view, hview⟩ := home_of_lies hm hs hu hlies
    rw [hhome] at hview
    cases hview
  known root id hlies := by
    obtain ⟨d, m, hd, hmarker, hkind⟩ := hlies
    obtain ⟨u, view, hu, -⟩ := hm.known root d id m hd hmarker hkind
    exact ⟨u, hu⟩
  parted root id hlies := (hs root id hlies).2
  foreign view v id hv hid := by
    obtain ⟨u, hu⟩ := hid
    exact hm.foreign id u view v hu hv

end Editor

namespace Session

theorem parted_lasting : Lasting fun s => s.editor.Parted where
  move hw hmove h := (hmove.numbers hw).parted h
  relog root f h := (onward_numbers.relog _ root f).parted h

theorem fresh_parted (limits : Limits) (locks : Option LockProtocol) :
    (fresh limits locks).editor.Parted := by
  rintro root id ⟨d, m, hd, -⟩
  cases hd

/-- No marker of the user in one session has the number of a marker of a view in the other. -/
def Strangers (s t : Session) : Prop :=
  (∀ view v id, s.editor.views.get? view = some v → t.editor.Knows id → v.markers.Outside id) ∧
    ∀ view v id, t.editor.views.get? view = some v → s.editor.Knows id → v.markers.Outside id

instance : Std.Symm Strangers where
  symm _ _ h := ⟨h.2, h.1⟩

theorem strangers_of_numbers {s t : Session} (hs : s.Settled) (ht : t.Settled)
    (h : s.editor.Numbers t.editor) : s.Strangers t := by
  constructor
  · intro view v id hv hid
    rcases h.known id hid with ⟨u, hu⟩ | hnew
    · exact hs.2.foreign id u view v hu hv
    · have hd := hs.2.distinct view v hv
      exact ⟨(Nat.ne_of_lt (Nat.lt_of_lt_of_le hd.point_lt hnew)).symm,
        (Nat.ne_of_lt (Nat.lt_of_lt_of_le hd.low_lt hnew)).symm,
        (Nat.ne_of_lt (Nat.lt_of_lt_of_le hd.high_lt hnew)).symm⟩
  · intro view v id hv hid
    obtain ⟨u, hu⟩ := h.kept id hid
    exact ht.2.foreign id u view v hu hv

/-- In a run, no marker of the user has the number of a marker of a view, of one killed before or
made later either. -/
theorem run_strangers (steps : List Step) {s r t : Session} (h : s.AtRest)
    (hsettled : ∀ t ∈ s :: runMoments steps s, t.Settled) (hr : r ∈ s :: runMoments steps s)
    (ht : t ∈ s :: runMoments steps s) : r.Strangers t := by
  have hpairs : (s :: runMoments steps s).Pairwise Strangers :=
    (onward_numbers.run steps s h).imp_of_mem fun hr ht hnumbers =>
      strangers_of_numbers (hsettled _ hr) (hsettled _ ht) hnumbers
  have hself : ∀ t ∈ s :: runMoments steps s, t.Strangers t := fun t ht =>
    strangers_of_numbers (hsettled t ht) (hsettled t ht) (.refl _)
  exact hpairs.forall_of_forall hself hr ht

end Session

end Editing
