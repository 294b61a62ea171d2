import Editing.Proofs.Session.Lasting

/-!
# Where overlays are

Where an overlay is gets kept twice: as its home, and among the overlays of a document. The two say
the same at every moment of a run. An overlay whose home is a root lies in the document of that root
and in no other one, a detached overlay lies in none, and the numbers that have a home are those
below the next one.
-/

namespace Editing

/-- Overlays that are taken out of their document are detached; the others stay where they are. -/
theorem OverlayHome.get?_detachAll (homes : Table OverlayHome) (os : Overlays) (id : OverlayId) :
    (detachAll homes os).get? id = ((os.get? id).map .detached).or (homes.get? id) := by
  obtain ⟨es, hes⟩ := os
  change (es.foldl (fun homes x => homes.insert x.1 (.detached x.2)) homes).get? id =
    ((Table.find id es).map .detached).or (homes.get? id)
  induction es generalizing homes with
  | nil => rfl
  | cons e es ih =>
      obtain ⟨he, hes⟩ := List.pairwise_cons.mp hes
      rw [List.foldl_cons, ih _ hes, Table.get?_insert, Table.find]
      split
      · rename_i hid
        have hlater : ∀ x ∈ es, id < x.1 := fun x hx => hid ▸ he x hx
        rw [Table.find_eq_none_of_lt hlater]
        rfl
      · rfl

namespace Editor

variable {e e' : Editor} {root r : ViewId} {overlay id : OverlayId} {o : Overlay}

/-- The document of a root holds an overlay. -/
def Holds (e : Editor) (root : ViewId) (overlay : OverlayId) : Prop :=
  ∃ d o, e.documents.get? root = some d ∧ d.overlays.get? overlay = some o

theorem holds_of_get {d : Document} (hd : e.documents.get? root = some d) (i : OverlayId) :
    (∃ o, d.overlays.get? i = some o) ↔ e.Holds root i := by
  constructor
  · rintro ⟨o, ho⟩
    exact ⟨d, o, hd, ho⟩
  · rintro ⟨c, o, hc, ho⟩
    obtain rfl := Option.some.inj (hd.symm.trans hc)
    exact ⟨o, ho⟩

/-- Homes and documents say the same about every overlay. -/
structure Overlaying (e : Editor) : Prop where
  numbered : ∀ id, (∃ home, e.overlayHomes.get? id = some home) ↔ id < e.nextOverlay
  attached : ∀ id root, e.overlayHomes.get? id = some (.attached root) ↔ e.Holds root id

namespace Overlaying

theorem unique (h : e.Overlaying) (hr : e.Holds r id) (hroot : e.Holds root id) : r = root := by
  have heq := ((h.attached id r).mpr hr).symm.trans ((h.attached id root).mpr hroot)
  cases heq
  rfl

theorem nowhere_of_detached (h : e.Overlaying)
    (ho : e.overlayHomes.get? id = some (.detached o)) (root : ViewId) : ¬e.Holds root id := by
  intro hroot
  have heq := ho.symm.trans ((h.attached id root).mpr hroot)
  cases heq

theorem nowhere_of_new (h : e.Overlaying) (hid : e.nextOverlay ≤ id) (root : ViewId) :
    ¬e.Holds root id := by
  intro hroot
  exact Nat.not_lt.mpr hid ((h.numbered id).mp ⟨_, (h.attached id root).mpr hroot⟩)

theorem lt_next_iff (h : e.Overlaying) {home : OverlayHome}
    (hh : e.overlayHomes.get? id = some home) (i : OverlayId) :
    i < e.nextOverlay ↔ i = id ∨ i < e.nextOverlay := by
  constructor
  · exact Or.inr
  · rintro (rfl | hi)
    · exact (h.numbered i).mp ⟨home, hh⟩
    · exact hi

theorem congr (h : e.Overlaying) (hholds : ∀ r i, e'.Holds r i ↔ e.Holds r i)
    (hhomes : e'.overlayHomes = e.overlayHomes) (hnext : e'.nextOverlay = e.nextOverlay) :
    e'.Overlaying where
  numbered i := by
    rw [hhomes, hnext]
    exact h.numbered i
  attached i r := by
    rw [hhomes, hholds]
    exact h.attached i r

/-- The document of one root changes, but not which overlays it holds. -/
theorem aside (h : e.Overlaying) {f : Document → Document}
    (hdocuments : e'.documents = e.documents.modify root f)
    (hf : ∀ d i, (∃ o, (f d).overlays.get? i = some o) ↔ ∃ o, d.overlays.get? i = some o)
    (hhomes : e'.overlayHomes = e.overlayHomes) (hnext : e'.nextOverlay = e.nextOverlay) :
    e'.Overlaying := by
  refine h.congr (fun r i => ?_) hhomes hnext
  unfold Holds
  rw [hdocuments, Table.get?_modify]
  split
  · cases e.documents.get? r with
    | none => simp only [Option.map_none, reduceCtorEq, false_and, exists_false]
    | some d =>
        simp only [Option.map_some, Option.some.injEq, exists_and_left, exists_eq_left']
        exact hf d i
  · exact Iff.rfl

/-- One overlay gets another home, and lies there from now on. -/
theorem rehome (h : e.Overlaying) {home : OverlayHome}
    (hhomes : e'.overlayHomes = e.overlayHomes.insert id home)
    (hnext : ∀ i, i < e'.nextOverlay ↔ i = id ∨ i < e.nextOverlay)
    (hholds : ∀ r i, e'.Holds r i ↔ if i = id then home = .attached r else e.Holds r i) :
    e'.Overlaying where
  numbered i := by
    rw [hhomes, Table.get?_insert, hnext]
    split
    · rename_i hi
      exact ⟨fun _ => Or.inl hi, fun _ => ⟨home, rfl⟩⟩
    · rename_i hi
      rw [h.numbered i]
      exact ⟨Or.inr, fun hor => hor.resolve_left hi⟩
  attached i r := by
    rw [hhomes, Table.get?_insert, hholds]
    split
    · exact Option.some_inj
    · exact h.attached i r

/-- All overlays of one document are detached. -/
theorem detach (h : e.Overlaying) {os : Overlays}
    (hos : ∀ i, (∃ o, os.get? i = some o) ↔ e.Holds root i)
    (hhomes : e'.overlayHomes = OverlayHome.detachAll e.overlayHomes os)
    (hnext : e'.nextOverlay = e.nextOverlay)
    (hholds : ∀ r i, e'.Holds r i ↔ e.Holds r i ∧ r ≠ root) : e'.Overlaying where
  numbered i := by
    rw [hhomes, hnext, OverlayHome.get?_detachAll, ← h.numbered i]
    cases hi : os.get? i with
    | none => rfl
    | some o =>
        have hroot := (hos i).mp ⟨o, hi⟩
        exact ⟨fun _ => ⟨_, (h.attached i root).mpr hroot⟩, fun _ => ⟨_, rfl⟩⟩
  attached i r := by
    rw [hhomes, OverlayHome.get?_detachAll, hholds, ← h.attached i r]
    cases hi : os.get? i with
    | none =>
        have hnone : ¬e.Holds root i := fun hroot => by
          obtain ⟨o, ho⟩ := (hos i).mpr hroot
          rw [hi] at ho
          cases ho
        constructor
        · intro hhome
          exact ⟨hhome, fun hr => hnone (hr ▸ (h.attached i r).mp hhome)⟩
        · exact And.left
    | some o =>
        have hroot := (hos i).mp ⟨o, hi⟩
        constructor
        · intro hhome
          cases hhome
        · rintro ⟨hhome, hr⟩
          exact absurd (h.unique ((h.attached i r).mp hhome) hroot) hr

end Overlaying

end Editor

/-- A change shifts overlays, and neither adds any nor takes any away. -/
theorem Document.get?_overlays_apply (d : Document) (c : Change) (id : OverlayId) :
    (∃ o, (d.apply c).overlays.get? id = some o) ↔ ∃ o, d.overlays.get? id = some o := by
  have hmap : ∀ f : Overlay → Overlay,
      (∃ o, (d.overlays.map f).get? id = some o) ↔ ∃ o, d.overlays.get? id = some o := by
    intro f
    rw [Table.get?_map]
    cases d.overlays.get? id with
    | none => rfl
    | some o => exact ⟨fun _ => ⟨o, rfl⟩, fun _ => ⟨f o, rfl⟩⟩
  cases c with
  | insert pos s => exact hmap _
  | delete start stop => exact hmap _
  | property start stop key value => exact Iff.rfl

namespace Session

variable {s t : Session} {root : ViewId} {d : Document} {overlay : OverlayId}

/-! ## Which documents hold an overlay -/

theorem holds_onDocument (root : ViewId) (f : Document → Document) (r : ViewId) (i : OverlayId) :
    (s.onDocument root f).editor.Holds r i ↔
      ∃ d o, s.editor.documents.get? r = some d ∧
        (if r = root then f d else d).overlays.get? i = some o := by
  unfold Editor.Holds
  rw [get?_onDocument]
  by_cases hr : r = root
  · simp only [if_pos hr, Option.map_eq_some_iff]
    constructor
    · rintro ⟨-, o, ⟨d, hd, rfl⟩, ho⟩
      exact ⟨d, o, hd, ho⟩
    · rintro ⟨d, o, hd, ho⟩
      exact ⟨f d, o, ⟨d, hd, rfl⟩, ho⟩
  · simp only [if_neg hr]

theorem holds_put (hd : s.editor.documents.get? root = some d) (o : Overlay) (r : ViewId)
    (i : OverlayId) :
    (s.onDocument root fun d =>
        { d with overlays := d.overlays.insert overlay o }).editor.Holds r i ↔
      r = root ∧ i = overlay ∨ s.editor.Holds r i := by
  rw [holds_onDocument]
  by_cases hr : r = root
  · subst hr
    simp only [if_true, Table.get?_insert, true_and]
    by_cases hi : i = overlay
    · simp only [hi, if_true, true_or, iff_true]
      exact ⟨d, o, hd, rfl⟩
    · simp only [hi, if_false, false_or]
      rfl
  · simp only [hr, if_false, false_and, false_or]
    rfl

theorem holds_erase (root : ViewId) (overlay : OverlayId) (r : ViewId) (i : OverlayId) :
    (s.onDocument root fun d =>
        { d with overlays := d.overlays.erase overlay }).editor.Holds r i ↔
      s.editor.Holds r i ∧ ¬(r = root ∧ i = overlay) := by
  rw [holds_onDocument]
  by_cases hr : r = root
  · simp only [hr, if_true, Table.get?_erase, true_and]
    by_cases hi : i = overlay
    · simp only [hi, if_true, reduceCtorEq, and_false, exists_false, not_true]
    · simp only [hi, if_false, not_false_eq_true, and_true]
      rfl
  · simp only [hr, if_false, false_and, not_false_eq_true, and_true]
    rfl

theorem holds_clear (root r : ViewId) (i : OverlayId) :
    (s.onDocument root fun d => { d with overlays := .empty }).editor.Holds r i ↔
      s.editor.Holds r i ∧ r ≠ root := by
  rw [holds_onDocument]
  by_cases hr : r = root
  · simp only [hr, if_true, Table.get?_empty, reduceCtorEq, and_false, exists_false, ne_eq,
      not_true]
  · simp only [hr, if_false, ne_eq, not_false_eq_true, and_true]
    rfl

/-! ## Moves -/

theorem overlaying_aside (h : s.editor.Overlaying) {f : Document → Document}
    (hf : ∀ d i, (∃ o, (f d).overlays.get? i = some o) ↔ ∃ o, d.overlays.get? i = some o) :
    (s.onDocument root f).editor.Overlaying := h.aside rfl hf rfl rfl

theorem overlaying_lifted (h : s.editor.Overlaying) (marker : MarkerId) (home : Option MarkerHome) :
    (s.lifted marker home).editor.Overlaying := by
  cases home with
  | none => exact h
  | some home => exact overlaying_aside h fun _ _ => Iff.rfl

theorem overlaying_advancing (h : s.editor.Overlaying) (marker : MarkerId) (advances : Bool)
    (home : Option MarkerHome) : (s.advancing marker advances home).editor.Overlaying := by
  cases home with
  | none => exact h
  | some home => exact overlaying_aside h fun _ _ => Iff.rfl

theorem overlaying_rehomed (h : s.editor.Overlaying) (marker : MarkerId)
    (home : Option MarkerHome) : (s.rehomed marker home).editor.Overlaying :=
  h.congr (fun _ _ => Iff.rfl) rfl rfl

theorem holds_removeRoot (root r : ViewId) (i : OverlayId) :
    (s.editor.removeRoot root d).Holds r i ↔ s.editor.Holds r i ∧ r ≠ root := by
  unfold Editor.Holds
  simp only [Editor.removeRoot, Table.get?_erase]
  by_cases hr : r = root
  · simp only [hr, if_true, reduceCtorEq, false_and, exists_false, ne_eq, not_true, and_false]
  · simp only [hr, if_false, ne_eq, not_false_eq_true, and_true]
    rfl

theorem Move.overlaying {mark : Option ViewId} (hmove : Move mark s t) (hw : s.editor.WellFormed)
    (h : s.editor.Overlaying) : t.editor.Overlaying := by
  cases hmove with
  | setLocks protocol => exact h
  | setLimits limits => exact h.congr (fun _ _ => Iff.rfl) rfl rfl
  | setInhibit inhibit => exact h.congr (fun _ _ => Iff.rfl) rfl rfl
  | setReadOnly hv readOnly => exact h.congr (fun _ _ => Iff.rfl) rfl rfl
  | setCurrent hv => exact h.congr (fun _ _ => Iff.rfl) rfl rfl
  | addRoot name =>
      have hnew := hw.registry.document_nextView
      refine h.congr (fun r i => ?_) rfl rfl
      unfold Editor.Holds
      simp only [editor_edit, Editor.addRoot, Table.get?_insert]
      by_cases hr : r = s.editor.nextView
      · simp [hr, hnew, Document.addView, Document.empty]
      · simp only [hr, if_false]
  | @addIndirect _ base v hv hb name =>
      have hseated : (s.onDocument base fun d =>
          d.addView s.editor.nextMarkers (d.extent v.markers)).editor.Overlaying :=
        overlaying_aside h fun _ _ => Iff.rfl
      exact hseated.congr (fun _ _ => Iff.rfl) rfl rfl
  | @removeIndirect _ view root v hv hb =>
      have hlifted : (s.onDocument root fun d =>
          { d.removeView v.markers with
            markers := (s.editor.markersSetIn view).foldl Table.erase
              (d.removeView v.markers).markers }).editor.Overlaying :=
        overlaying_aside h fun _ _ => Iff.rfl
      exact hlifted.congr (fun _ _ => Iff.rfl) rfl rfl
  | @removeRoot _ root v hv hb halone c d hd hc =>
      have hos : c.overlays = d.overlays := by
        change c.unmarked.overlays = d.unmarked.overlays
        rw [hc]
      rw [editor_edit, editor_unlocked]
      exact h.detach (fun i => by rw [← hos]; exact Editor.holds_of_get hd i) rfl rfl
        (holds_removeRoot root)
  | narrow hs hpq hq => exact overlaying_aside h fun _ _ => Iff.rfl
  | widen hs => exact overlaying_aside h fun _ _ => Iff.rfl
  | goto hs hlow hhigh => exact overlaying_aside h fun _ _ => Iff.rfl
  | @change _ view root v d hs c hrange hvoid hgrant =>
      have hready : ((s.prepared root d).announced root d).editor.Overlaying := by
        rw [editor_announced, editor_prepared]
        split
        · exact overlaying_aside h fun _ _ => Iff.rfl
        · exact h
      exact hready.aside rfl (fun d i => d.get?_overlays_apply c i) rfl (by rfl)
  | refused root path => exact h
  | restore root start stop key value => exact h
  | handler call => exact h
  | log hd hl => exact overlaying_aside h fun _ _ => Iff.rfl
  | readjust has =>
      exact overlaying_aside h fun d i => by rw [Document.overlays_readjustAll]
  | setUnmodified hs =>
      rw [editor_unlocked]
      exact overlaying_aside h fun _ _ => Iff.rfl
  | setFile hs hfile hgrant =>
      rw [editor_unlocked]
      split
      · exact overlaying_aside (by rw [editor_granted]; exact h) fun _ _ => Iff.rfl
      · exact overlaying_aside h fun _ _ => Iff.rfl
  | makeMarker => exact h.congr (fun _ _ => Iff.rfl) rfl rfl
  | placeMarker hu hs pos =>
      refine overlaying_rehomed (overlaying_aside (overlaying_lifted h _ _) ?_) _ _
      exact fun _ _ => Iff.rfl
  | detachMarker hu => exact overlaying_rehomed (overlaying_lifted h _ _) _ _
  | setAdvances hu advances =>
      exact (overlaying_advancing h _ _ _).congr (fun _ _ => Iff.rfl) rfl rfl
  | @makeOverlay _ view root v d hs p q front rear =>
      refine h.rehome rfl (fun i => Nat.lt_succ_iff_lt_or_eq.trans or_comm) fun r i => ?_
      refine (holds_put hs.document _ r i).trans ?_
      have hnew := h.nowhere_of_new (Nat.le_refl _) r
      split
      · rename_i hi
        simp only [hi, and_true, hnew, or_false, OverlayHome.attached.injEq, eq_comm]
      · rename_i hi
        simp only [hi, and_false, false_or]
  | @setDetached _ overlay o ho p =>
      refine h.rehome rfl (h.lt_next_iff ho) fun r i => ?_
      split
      · rename_i hi
        have hnone := h.nowhere_of_detached ho r
        rw [← hi] at hnone
        exact ⟨fun hholds => absurd hholds hnone, fun hhome => by cases hhome⟩
      · exact Iff.rfl
  | @setAttached _ overlay o home root v d hh hs ho p =>
      refine h.congr (fun r i => (holds_put hs.document _ r i).trans ?_) rfl rfl
      refine ⟨fun hor => hor.elim ?_ id, Or.inr⟩
      rintro ⟨rfl, rfl⟩
      exact ⟨d, o, hs.document, ho⟩
  | @deleteOverlay _ overlay o home root v d hh hs ho =>
      refine h.rehome rfl (h.lt_next_iff hh) fun r i => ?_
      refine (holds_erase root overlay r i).trans ?_
      split
      · rename_i hi
        constructor
        · rintro ⟨hholds, hother⟩
          rw [hi] at hholds
          exact absurd ⟨h.unique hholds ⟨d, o, hs.document, ho⟩, hi⟩ hother
        · intro hhome
          cases hhome
      · rename_i hi
        simp only [hi, and_false, not_false_eq_true, and_true]
  | deleteAllOverlays hs =>
      exact h.detach (Editor.holds_of_get hs.document) rfl rfl (holds_clear _)
  | @moveDetached _ overlay o view root v d ho hs p q =>
      refine h.rehome rfl (h.lt_next_iff ho) fun r i => ?_
      refine (holds_put hs.document _ r i).trans ?_
      have hnone := h.nowhere_of_detached ho r
      split
      · rename_i hi
        simp only [hi, and_true, hnone, or_false, OverlayHome.attached.injEq, eq_comm]
      · rename_i hi
        simp only [hi, and_false, false_or]
  | @moveAttached _ overlay o home old view root w v c d hh hold ho hs p q =>
      refine h.rehome rfl (h.lt_next_iff hh) fun r i => ?_
      have hshown := (shows_onDocument hs old fun d =>
        { d with overlays := d.overlays.erase overlay }).document
      refine (holds_put hshown _ r i).trans ?_
      rw [holds_erase]
      split
      · rename_i hi
        -- The overlay has left the only document that it was in.
        have hleft : ¬(s.editor.Holds r i ∧ ¬(r = old ∧ i = overlay)) := by
          rintro ⟨hholds, hother⟩
          rw [hi] at hholds
          exact hother ⟨h.unique hholds ⟨c, o, hold.document, ho⟩, hi⟩
        rw [or_iff_left hleft]
        simp only [hi, and_true, OverlayHome.attached.injEq, eq_comm]
      · rename_i hi
        simp only [hi, and_false, false_or, not_false_eq_true, and_true]

theorem overlaying_lasting : Lasting fun s => s.editor.Overlaying where
  move hw hmove h := hmove.overlaying hw h
  relog _ _ h := overlaying_aside h fun _ _ => Iff.rfl

theorem fresh_overlaying (limits : Limits) (locks : Option LockProtocol) :
    (fresh limits locks).editor.Overlaying := by
  constructor <;> simp [fresh, start, Editor.empty, Editor.Holds]

end Session

end Editing
