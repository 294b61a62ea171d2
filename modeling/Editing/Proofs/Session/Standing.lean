import Editing.Proofs.Session.Logged
import Editing.Proofs.Session.Positions

/-!
# Markers stand within the text

Whoever a marker belongs to, it stands within the text of the document that it lies in: it is put
there so, every change moves it along, and what an undo takes back from it stops at the ends of the
text. This goes for the markers of no view that is live too, so it can be said of a document alone.
-/

namespace Editing

namespace Document

theorem extent_le (d : Document) (ids : ViewMarkers) :
    (d.extent ids).low ≤ (d.extent ids).point ∧ (d.extent ids).point ≤ (d.extent ids).high ∧
      (d.extent ids).high ≤ d.length := by
  have hlow : min ((Markers.position? d.markers ids.low).getD 0) d.length ≤ d.length :=
    Nat.min_le_right _ _
  have hhigh := Position.le_clamp (p := (Markers.position? d.markers ids.high).getD d.length) hlow
  exact ⟨Position.le_clamp hhigh, Position.clamp_le hhigh, Position.clamp_le hlow⟩

/-- Every marker of the document stands within the text. -/
def Placed (d : Document) : Prop := ∀ id m, d.markers.get? id = some m → m.position ≤ d.length

namespace Placed

variable {d : Document}

theorem put (h : d.Placed) (id : MarkerId) {m : Marker} (hm : m.position ≤ d.length) :
    Placed { d with markers := d.markers.insert id m } := by
  intro other n hn
  rw [Table.get?_insert] at hn
  split at hn
  · cases hn
    exact hm
  · exact h other n hn

theorem erase (h : d.Placed) (id : MarkerId) :
    Placed { d with markers := d.markers.erase id } := by
  intro other n hn
  rw [Table.get?_erase] at hn
  split at hn
  · cases hn
  · exact h other n hn

theorem eraseAll (h : d.Placed) (ids : List MarkerId) :
    Placed { d with markers := ids.foldl Table.erase d.markers } := by
  induction ids generalizing d with
  | nil => exact h
  | cons id ids ih => exact ih (h.erase id)

theorem setPosition (h : d.Placed) (id : MarkerId) {pos : Nat} (hpos : pos ≤ d.length) :
    (d.setPosition id pos).Placed := by
  intro other n hn
  rw [Document.setPosition, Markers.setPosition, Table.get?_modify] at hn
  split at hn
  · obtain ⟨m, -, rfl⟩ := Option.map_eq_some_iff.mp hn
    exact hpos
  · exact h other n hn

theorem setAdvances (h : d.Placed) (id : MarkerId) (advances : Bool) :
    Placed { d with markers := Markers.setAdvances d.markers id advances } := by
  intro other n hn
  rw [Markers.setAdvances, Table.get?_modify] at hn
  split at hn
  · obtain ⟨m, hm, rfl⟩ := Option.map_eq_some_iff.mp hn
    exact h other m hm
  · exact h other n hn

theorem addView (h : d.Placed) (ids : ViewMarkers) {x : Extent} (hpoint : x.point ≤ d.length)
    (hlow : x.low ≤ d.length) (hhigh : x.high ≤ d.length) : (d.addView ids x).Placed :=
  ((h.put ids.point hpoint).put ids.low hlow).put ids.high hhigh

theorem removeView (h : d.Placed) (ids : ViewMarkers) : (d.removeView ids).Placed :=
  ((h.erase ids.point).erase ids.low).erase ids.high

theorem insert (h : d.Placed) (pos : Nat) (s : Text) : (d.insert pos s).Placed := by
  intro id m hm
  have hmap : (d.insert pos s).markers.get? id =
      (d.markers.get? id).map (·.afterInsert pos s.length) := Table.get?_map _ _ _
  have hlength : (d.insert pos s).length = d.length + s.length := Text.length_insert _ _ _
  rw [hmap] at hm
  obtain ⟨m, hold, rfl⟩ := Option.map_eq_some_iff.mp hm
  rw [hlength]
  exact Position.afterInsert_le (h id m hold)

theorem delete (h : d.Placed) {start stop : Nat} (hs : start ≤ stop) (hstop : stop ≤ d.length) :
    (d.delete start stop).Placed := by
  intro id m hm
  have hmap : (d.delete start stop).markers.get? id =
      (d.markers.get? id).map (·.afterDelete start stop) := Table.get?_map _ _ _
  have hlength : (d.delete start stop).length = d.length - (stop - start) := by
    change (d.text.remove start stop).length = _
    rw [Text.length_remove, Text.length_slice,
      Nat.min_eq_left (show stop ≤ d.text.length from hstop)]
    rfl
  rw [hmap] at hm
  obtain ⟨m, hold, rfl⟩ := Option.map_eq_some_iff.mp hm
  rw [hlength]
  exact Position.afterDelete_le hs hstop (h id m hold)

theorem apply (h : d.Placed) {c : Change} (hrange : c.rangeError d.length = none) :
    (d.apply c).Placed := by
  cases c with
  | insert pos s => exact h.insert pos s
  | delete start stop =>
      obtain ⟨hs, hstop⟩ := Change.delete_le hrange
      exact h.delete hs hstop
  | property start stop key value => exact h

/-- What is taken back from a marker stops at the ends of the text. -/
theorem readjust (h : d.Placed) (a : MarkerAdjustment) : (d.readjust a).Placed := by
  rw [Document.readjust]
  split
  · exact h
  · exact h.setPosition a.marker (by omega)

theorem readjustAll (h : d.Placed) (as : List MarkerAdjustment) :
    (as.foldl Document.readjust d).Placed := by
  induction as generalizing d with
  | nil => exact h
  | cons a as ih => exact ih (h.readjust a)

end Placed

end Document

namespace Session

open Document

variable {s t : Session} {root : ViewId} {v : View} {d : Document}

theorem Every.edit {Q : Document → Prop} (h : s.Every Q) {f : Editor → Editor}
    (hf : ∀ e, (f e).documents = e.documents) : (s.edit f).Every Q := by
  intro r c hc
  rw [editor_edit, hf] at hc
  exact h r c hc

theorem Every.onShown {Q : Document → Prop} (h : s.Every Q)
    (hd : s.editor.documents.get? root = some d) {f : Document → Document} (hf : Q (f d)) :
    (s.onDocument root f).Every Q :=
  h.onDocument fun c hc => by
    obtain rfl := Option.some.inj (hd.symm.trans hc)
    exact hf

theorem placed_lifted (h : s.Every Placed) (marker : MarkerId) (home : Option MarkerHome) :
    (s.lifted marker home).Every Placed := by
  cases home with
  | none => exact h
  | some home => exact h.onDocument fun d hd => (h home.root d hd).erase marker

theorem placed_advancing (h : s.Every Placed) (marker : MarkerId) (advances : Bool)
    (home : Option MarkerHome) : (s.advancing marker advances home).Every Placed := by
  cases home with
  | none => exact h
  | some home => exact h.onDocument fun d hd => (h home.root d hd).setAdvances marker advances

/-- The length of a document is the same once a marker has been taken from where it was. -/
theorem length_lifted (hd : s.editor.documents.get? root = some d) (marker : MarkerId)
    (home : Option MarkerHome) {c : Document}
    (hc : (s.lifted marker home).editor.documents.get? root = some c) : c.length = d.length := by
  cases home with
  | none =>
      obtain rfl := Option.some.inj (hd.symm.trans hc)
      rfl
  | some home =>
      rw [lifted, get?_onDocument, hd] at hc
      split at hc
      · cases hc
        rfl
      · cases hc
        rfl

/-- A document that is changed neither in its markers nor in its text has them where they were. -/
theorem placed_aside (h : s.Every Placed) (root : ViewId) {f : Document → Document}
    (hf : ∀ d, (f d).markers = d.markers ∧ (f d).text = d.text) :
    (s.onDocument root f).Every Placed := by
  refine h.onDocument fun d hd id m hm => ?_
  rw [(hf d).1] at hm
  rw [length, (hf d).2]
  exact h root d hd id m hm

theorem placed_setFile (h : s.Every Placed) {f : Document → Document} (root : ViewId)
    (hf : ∀ d, (f d).markers = d.markers ∧ (f d).text = d.text) (path : Path) :
    ((s.granted root path).onDocument root f).Every Placed := by
  refine placed_aside (fun r c hc => ?_) root hf
  rw [editor_granted] at hc
  exact h r c hc

theorem placed_move {mark : Option ViewId} (hmove : Move mark s t) (h : s.Every Placed) :
    t.Every Placed := by
  cases hmove with
  | setLocks protocol => exact h
  | setLimits limits => exact h
  | setInhibit inhibit => exact h
  | setReadOnly hv readOnly => exact h
  | setCurrent hv => exact h
  | addRoot name =>
      intro r c hc
      rw [editor_edit, Editor.addRoot, Table.get?_insert] at hc
      split at hc
      · cases hc
        have hempty : Document.empty.Placed := fun id m hm => by cases hm
        exact hempty.addView _ (Nat.le_refl 0) (Nat.le_refl 0) (Nat.le_refl 0)
      · exact h r c hc
  | @addIndirect _ base v hv hb name =>
      have hseated : (s.onDocument base fun d =>
          d.addView s.editor.nextMarkers (d.extent v.markers)).Every Placed :=
        h.onDocument fun d hd => by
          obtain ⟨hlow, hpoint, hhigh⟩ := d.extent_le v.markers
          exact (h base d hd).addView _ (by omega) (by omega) hhigh
      exact hseated
  | @removeIndirect _ view root v hv hb =>
      have hlifted : (s.onDocument root fun d =>
          { d.removeView v.markers with
            markers := (s.editor.markersSetIn view).foldl Table.erase
              (d.removeView v.markers).markers }).Every Placed :=
        h.onDocument fun d hd => ((h root d hd).removeView v.markers).eraseAll _
      exact hlifted
  | removeRoot hv hb halone hd hc =>
      intro r c hr
      rw [editor_edit, editor_unlocked, Editor.removeRoot, Table.get?_erase] at hr
      split at hr
      · cases hr
      · exact h r c hr
  | @narrow _ view root v d hs p q hpq hq =>
      have hclamp := Position.clamp_le (p := (d.extent v.markers).point) hpq
      exact h.onShown hs.document ((((h root d hs.document).setPosition _
        (Nat.le_trans hpq hq)).setPosition _ hq).setPosition _ (Nat.le_trans hclamp hq))
  | @widen _ view root v d hs =>
      exact h.onShown hs.document (((h root d hs.document).setPosition _
        (Nat.zero_le _)).setPosition _ (Nat.le_refl _))
  | @goto _ view root v d hs pos hlow hhigh =>
      obtain ⟨-, -, hle⟩ := d.extent_le v.markers
      exact h.onShown hs.document
        ((h root d hs.document).setPosition _ (Nat.le_trans hhigh hle))
  | @change _ view root v d hs c hrange hvoid hgrant =>
      intro r c' hc'
      rw [documents_changed hs.document] at hc'
      split at hc'
      · cases hc'
        have hd : ({ d with locked := d.locked || d.wanted.isSome } : Document).Placed :=
          h root d hs.document
        exact hd.apply hrange
      · exact h r c' hc'
  | refused root path => exact h
  | restore root start stop key value => exact h
  | handler call => exact h
  | log hd hl => exact placed_aside h _ fun _ => ⟨rfl, rfl⟩
  | readjust has => exact h.onDocument fun d hd => (h _ d hd).readjustAll _
  | setUnmodified hs =>
      intro r c hc
      rw [editor_unlocked] at hc
      exact placed_aside h _ (fun _ => by exact ⟨rfl, rfl⟩) r c hc
  | setFile hs hfile hgrant =>
      intro r c hc
      rw [editor_unlocked] at hc
      split at hc
      · exact placed_setFile h _ (fun _ => by exact ⟨rfl, rfl⟩) _ r c hc
      · exact placed_aside h _ (fun _ => by exact ⟨rfl, rfl⟩) r c hc
  | makeMarker => exact h
  | @placeMarker _ marker u view root v d hu hs pos =>
      have hlifted := placed_lifted h marker u.home
      refine (hlifted.onDocument fun c hc => ?_).edit fun _ => rfl
      refine (hlifted root c hc).put marker ?_
      rw [length_lifted hs.document marker u.home hc]
      exact Nat.min_le_right pos d.length
  | detachMarker hu => exact (placed_lifted h _ _).edit fun _ => rfl
  | setAdvances hu advances => exact (placed_advancing h _ _ _).edit fun _ => rfl
  | makeOverlay hs p q front rear => exact placed_aside h _ fun _ => ⟨rfl, rfl⟩
  | setDetached ho p => exact h
  | setAttached hh hs ho p => exact placed_aside h _ fun _ => ⟨rfl, rfl⟩
  | deleteOverlay hh hs ho => exact placed_aside h _ fun _ => ⟨rfl, rfl⟩
  | deleteAllOverlays hs => exact placed_aside h _ fun _ => ⟨rfl, rfl⟩
  | moveDetached ho hs p q => exact placed_aside h _ fun _ => ⟨rfl, rfl⟩
  | moveAttached hh hold ho hs p q =>
      exact (placed_aside (placed_aside h _ fun _ => by exact ⟨rfl, rfl⟩) _
        fun _ => by exact ⟨rfl, rfl⟩).edit fun _ => rfl

theorem placed_lasting : Lasting (Every Placed) where
  move _ hmove h := placed_move hmove h
  relog root _ h := h.onDocument fun d hd => h root d hd

end Session

end Editing
