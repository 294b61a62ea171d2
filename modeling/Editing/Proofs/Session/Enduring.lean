import Editing.Proofs.Session.Lasting

/-!
# What becomes of documents

Few things can happen to a document: that markers are set or the log is cut back, that a change is
applied, that the document is saved or visits another file, and that overlays come, go or get other
properties. A relation that each of these keeps holds between a document and all that becomes of it
in a run, and a property that each of them keeps holds of every document throughout.
-/

namespace Editing

/-- A relation between a document and what becomes of it. -/
structure Document.Onward (Q : Document → Document → Prop) : Prop where
  refl : ∀ d, Q d d
  trans : ∀ {b c d : Document}, Q b c → Q c d → Q b d
  mark : ∀ d ms, Q d { d with markers := ms }
  relog : ∀ d l, Q d { d with log := l }
  apply : ∀ d c, c.rangeError d.length = none →
    Q d (Document.apply { d with locked := d.locked || d.wanted.isSome } c)
  save : ∀ d, Q d { d with saveTick := d.tick, locked := false }
  visit : ∀ d file, Q d { d with file := file, locked := d.isModified && file.isSome }
  place : ∀ d id o, o.start ≤ o.stop → o.stop ≤ d.length →
    Q d { d with overlays := d.overlays.insert id o }
  put : ∀ d id o p, d.overlays.get? id = some o →
    Q d { d with overlays := d.overlays.insert id { o with properties := p } }
  erase : ∀ d id, Q d { d with overlays := d.overlays.erase id }
  clear : ∀ d, Q d { d with overlays := .empty }

theorem Position.ordered_snd_le {p q n : Nat} (hp : p ≤ n) (hq : q ≤ n) :
    (ordered p q).2 ≤ n := by
  unfold ordered
  split
  · exact hq
  · exact hp

namespace Overlay

theorem between_le {p q n : Nat} (hp : p ≤ n) (hq : q ≤ n) (front rear : Bool) :
    (between p q front rear).start ≤ (between p q front rear).stop ∧
      (between p q front rear).stop ≤ n :=
  ⟨Position.ordered_fst_le p q, Position.ordered_snd_le hp hq⟩

theorem moveTo_le (o : Overlay) {p q n : Nat} (hp : p ≤ n) (hq : q ≤ n) :
    (o.moveTo p q).start ≤ (o.moveTo p q).stop ∧ (o.moveTo p q).stop ≤ n :=
  ⟨Position.ordered_fst_le p q, Position.ordered_snd_le hp hq⟩

end Overlay

/-- Every document has become of the one that its root had before, or of an empty one when the root
is new. -/
structure Editor.Descends (Q : Document → Document → Prop) (e e' : Editor) : Prop where
  numbered : e.nextView ≤ e'.nextView
  descent : ∀ root c, e'.documents.get? root = some c →
    (∃ d, e.documents.get? root = some d ∧ Q d c) ∨ e.nextView ≤ root ∧ Q .empty c

namespace Editor.Descends

variable {Q : Document → Document → Prop} {e e' e'' : Editor} {root : ViewId} {d c : Document}

theorem refl (hrefl : ∀ d, Q d d) (e : Editor) : e.Descends Q e :=
  ⟨Nat.le_refl _, fun _ c hc => Or.inl ⟨c, hc, hrefl c⟩⟩

theorem trans (htrans : ∀ {b c d : Document}, Q b c → Q c d → Q b d) (h : e.Descends Q e')
    (h' : e'.Descends Q e'') : e.Descends Q e'' := by
  refine ⟨Nat.le_trans h.numbered h'.numbered, fun root c hc => ?_⟩
  rcases h'.descent root c hc with ⟨d, hd, hdc⟩ | ⟨hnew, hempty⟩
  · rcases h.descent root d hd with ⟨b, hb, hbd⟩ | ⟨hnew, hempty⟩
    · exact Or.inl ⟨b, hb, htrans hbd hdc⟩
    · exact Or.inr ⟨hnew, htrans hempty hdc⟩
  · exact Or.inr ⟨Nat.le_trans h.numbered hnew, hempty⟩

/-- What a root has later has become of what it had before, as no number is given out twice. -/
theorem later (h : e.Descends Q e') (hroot : root < e.nextView)
    (hc : e'.documents.get? root = some c) : ∃ d, e.documents.get? root = some d ∧ Q d c := by
  rcases h.descent root c hc with hearlier | ⟨hnew, -⟩
  · exact hearlier
  · exact absurd hroot (Nat.not_lt.mpr hnew)

/-- Without documents at first, every document has become of an empty one. -/
theorem of_fresh {limits : Limits} {locks : Option LockProtocol}
    (h : (Session.fresh limits locks).editor.Descends Q e)
    (hd : e.documents.get? root = some d) : Q .empty d := by
  rcases h.descent root d hd with ⟨b, hb, -⟩ | ⟨-, hempty⟩
  · cases hb
  · exact hempty

end Editor.Descends

namespace Document.Onward

open Session

variable {Q : Document → Document → Prop} {e : Editor} {s t : Session} {root : ViewId}
  {d : Document} (hQ : Document.Onward Q)
include hQ

theorem descends_refl (e : Editor) : e.Descends Q e := .refl hQ.refl e

/-- The document of a root changes into one that it may become. -/
theorem onDocument (h : e.Descends Q s.editor) {f : Document → Document}
    (hf : ∀ d, s.editor.documents.get? root = some d → Q d (f d)) :
    e.Descends Q (s.onDocument root f).editor := by
  refine h.trans hQ.trans ⟨Nat.le_refl _, fun r c hc => Or.inl ?_⟩
  rw [get?_onDocument] at hc
  split at hc
  · rename_i hr
    obtain ⟨d, hd, rfl⟩ := Option.map_eq_some_iff.mp hc
    exact ⟨d, hd, hf d (hr ▸ hd)⟩
  · exact ⟨c, hc, hQ.refl c⟩

theorem onShown (h : e.Descends Q s.editor) (hd : s.editor.documents.get? root = some d)
    {f : Document → Document} (hf : Q d (f d)) : e.Descends Q (s.onDocument root f).editor := by
  apply hQ.onDocument h
  intro c hc
  obtain rfl := Option.some.inj (hd.symm.trans hc)
  exact hf

/-- What is done to an editor besides. -/
theorem edit (h : e.Descends Q s.editor) {f : Editor → Editor}
    (hf : ∀ e, (f e).documents = e.documents ∧ (f e).nextView = e.nextView) :
    e.Descends Q (s.edit f).editor := by
  refine h.trans hQ.trans ⟨Nat.le_of_eq (hf s.editor).2.symm, fun root c hc => Or.inl ?_⟩
  rw [editor_edit, (hf s.editor).1] at hc
  exact ⟨c, hc, hQ.refl c⟩

theorem readjustAll (as : List MarkerAdjustment) (d : Document) :
    Q d (as.foldl Document.readjust d) := by
  induction as generalizing d with
  | nil => exact hQ.refl d
  | cons a as ih =>
      rw [List.foldl_cons]
      obtain ⟨pos, heq | heq⟩ := d.readjust_eq a
      · rw [heq]
        exact ih d
      · rw [heq]
        exact hQ.trans (hQ.mark d _) (ih _)

theorem lifted (s : Session) (marker : MarkerId) (home : Option MarkerHome) :
    s.editor.Descends Q (s.lifted marker home).editor := by
  cases home with
  | none => exact hQ.descends_refl _
  | some home => exact hQ.onDocument (hQ.descends_refl _) fun d _ => hQ.mark d _

theorem advancing (s : Session) (marker : MarkerId) (advances : Bool)
    (home : Option MarkerHome) : s.editor.Descends Q (s.advancing marker advances home).editor := by
  cases home with
  | none => exact hQ.descends_refl _
  | some home => exact hQ.onDocument (hQ.descends_refl _) fun d _ => hQ.mark d _

theorem move {mark : Option ViewId} (hmove : Move mark s t) : s.editor.Descends Q t.editor := by
  have hrefl := hQ.descends_refl s.editor
  have hmark : ∀ (root : ViewId) (f : Document → Markers),
      s.editor.Descends Q (s.onDocument root fun d => { d with markers := f d }).editor :=
    fun root f => hQ.onDocument hrefl fun d _ => hQ.mark d (f d)
  cases hmove with
  | setLocks protocol => exact hrefl
  | setLimits limits => exact hQ.edit hrefl fun _ => ⟨rfl, rfl⟩
  | setInhibit inhibit => exact hQ.edit hrefl fun _ => ⟨rfl, rfl⟩
  | setReadOnly hv readOnly => exact hQ.edit hrefl fun _ => ⟨rfl, rfl⟩
  | setCurrent hv => exact hQ.edit hrefl fun _ => ⟨rfl, rfl⟩
  | addRoot name =>
      refine ⟨Nat.le_succ _, fun root c hc => ?_⟩
      rw [editor_edit, Editor.addRoot, Table.get?_insert] at hc
      split at hc
      · rename_i hr
        cases hc
        exact Or.inr ⟨Nat.le_of_eq hr.symm, hQ.mark .empty _⟩
      · exact Or.inl ⟨c, hc, hQ.refl c⟩
  | @addIndirect _ base v hv hb name =>
      have hseated : s.editor.Descends Q (s.onDocument base fun d =>
          d.addView s.editor.nextMarkers (d.extent v.markers)).editor :=
        hQ.onDocument hrefl fun d _ => hQ.mark d _
      exact ⟨Nat.le_succ _, hseated.descent⟩
  | @removeIndirect _ view root v hv hb =>
      have hlifted : s.editor.Descends Q (s.onDocument root fun d =>
          { d.removeView v.markers with
            markers := (s.editor.markersSetIn view).foldl Table.erase
              (d.removeView v.markers).markers }).editor :=
        hQ.onDocument hrefl fun d _ => hQ.mark d _
      exact ⟨hlifted.numbered, hlifted.descent⟩
  | removeRoot hv hb halone hd hc =>
      refine ⟨?_, fun r c hr => ?_⟩
      · rw [editor_edit, editor_unlocked]
        exact Nat.le_refl _
      · rw [editor_edit, editor_unlocked, Editor.removeRoot, Table.get?_erase] at hr
        split at hr
        · cases hr
        · exact Or.inl ⟨c, hr, hQ.refl c⟩
  | narrow hs hpq hq => exact hmark _ _
  | widen hs => exact hmark _ _
  | goto hs hlow hhigh => exact hmark _ _
  | @change _ view root v d hs c hrange hvoid hgrant =>
      refine ⟨?_, fun r c' hc' => ?_⟩
      · rw [changed, onDocument_editor, editor_announced, editor_prepared]
        split
        · exact Nat.le_refl _
        · exact Nat.le_refl _
      · rw [documents_changed hs.document] at hc'
        split at hc'
        · rename_i hr
          cases hc'
          exact Or.inl ⟨d, hr ▸ hs.document, hQ.apply d c hrange⟩
        · exact Or.inl ⟨c', hc', hQ.refl c'⟩
  | refused root path => exact hrefl
  | restore root start stop key value => exact hrefl
  | handler call => exact hrefl
  | log hd hl => exact hQ.onDocument hrefl fun d _ => hQ.relog d _
  | readjust has => exact hQ.onDocument hrefl fun d _ => hQ.readjustAll _ d
  | setUnmodified hs =>
      rw [editor_unlocked]
      exact hQ.onDocument hrefl fun d _ => hQ.save d
  | setFile hs hfile hgrant =>
      rw [editor_unlocked]
      split
      · exact hQ.onShown (by rw [editor_granted]; exact hrefl)
          (by rw [editor_granted]; exact hs.document) (hQ.visit _ _)
      · exact hQ.onShown hrefl hs.document (hQ.visit _ _)
  | makeMarker => exact hQ.edit hrefl fun _ => ⟨rfl, rfl⟩
  | placeMarker hu hs pos =>
      refine hQ.edit (hQ.onDocument (hQ.lifted s _ _) ?_) fun _ => ⟨rfl, rfl⟩
      exact fun d _ => hQ.mark d _
  | detachMarker hu => exact hQ.edit (hQ.lifted s _ _) fun _ => ⟨rfl, rfl⟩
  | setAdvances hu advances => exact hQ.edit (hQ.advancing s _ _ _) fun _ => ⟨rfl, rfl⟩
  | makeOverlay hs p q front rear =>
      obtain ⟨hle, hin⟩ :=
        Overlay.between_le (Nat.min_le_right p _) (Nat.min_le_right q _) front rear
      refine hQ.edit (hQ.onShown hrefl hs.document ?_) fun _ => ⟨rfl, rfl⟩
      exact hQ.place _ _ _ hle hin
  | setDetached ho p => exact hQ.edit hrefl fun _ => ⟨rfl, rfl⟩
  | setAttached hh hs ho p => exact hQ.onShown hrefl hs.document (hQ.put _ _ _ p ho)
  | deleteOverlay hh hs ho =>
      refine hQ.edit (hQ.onDocument hrefl ?_) fun _ => ⟨rfl, rfl⟩
      exact fun d _ => hQ.erase d _
  | deleteAllOverlays hs =>
      refine hQ.edit (hQ.onDocument hrefl ?_) fun _ => ⟨rfl, rfl⟩
      exact fun d _ => hQ.clear d
  | moveDetached ho hs p q =>
      obtain ⟨hle, hin⟩ := Overlay.moveTo_le _ (Nat.min_le_right p _) (Nat.min_le_right q _)
      refine hQ.edit (hQ.onShown hrefl hs.document ?_) fun _ => ⟨rfl, rfl⟩
      exact hQ.place _ _ _ hle hin
  | @moveAttached _ overlay o home old view root w v c d hh hold ho hs p q =>
      obtain ⟨hle, hin⟩ := Overlay.moveTo_le o (Nat.min_le_right p d.length)
        (Nat.min_le_right q d.length)
      have herased : s.editor.Descends Q (s.onDocument old fun d =>
          { d with overlays := d.overlays.erase overlay }).editor :=
        hQ.onDocument hrefl fun d _ => hQ.erase d overlay
      refine hQ.edit (hQ.onDocument herased ?_) fun _ => ⟨rfl, rfl⟩
      -- The overlay may leave the very document that it comes into; only its length matters.
      intro b hb
      rw [get?_onDocument, hs.document] at hb
      have hlength : b.length = d.length := by
        split at hb
        · cases hb
          rfl
        · cases hb
          rfl
      exact hQ.place b _ _ hle (hlength ▸ hin)

theorem onward : Session.Onward fun s t => s.editor.Descends Q t.editor where
  refl s := hQ.descends_refl s.editor
  trans h h' := h.trans hQ.trans h'
  move _ hmove := hQ.move hmove
  relog s _ f := hQ.onDocument (hQ.descends_refl s.editor) fun d _ => hQ.relog d (f d.log)

end Document.Onward

/-! ## Properties of every document -/

/-- Nothing that happens to a document breaks the property. -/
structure Document.Enduring (Q : Document → Prop) : Prop where
  empty : Q .empty
  mark : ∀ d ms, Q d → Q { d with markers := ms }
  relog : ∀ d l, Q d → Q { d with log := l }
  apply : ∀ d c, c.rangeError d.length = none → Q d →
    Q (Document.apply { d with locked := d.locked || d.wanted.isSome } c)
  save : ∀ d, Q d → Q { d with saveTick := d.tick, locked := false }
  visit : ∀ d file, Q d → Q { d with file := file, locked := d.isModified && file.isSome }
  place : ∀ d id o, o.start ≤ o.stop → o.stop ≤ d.length → Q d →
    Q { d with overlays := d.overlays.insert id o }
  put : ∀ d id o p, d.overlays.get? id = some o → Q d →
    Q { d with overlays := d.overlays.insert id { o with properties := p } }
  erase : ∀ d id, Q d → Q { d with overlays := d.overlays.erase id }
  clear : ∀ d, Q d → Q { d with overlays := .empty }

namespace Session

variable {Q : Document → Prop}

/-- Every document has the property. -/
def Every (Q : Document → Prop) (s : Session) : Prop :=
  ∀ root d, s.editor.documents.get? root = some d → Q d

theorem fresh_every (limits : Limits) (locks : Option LockProtocol) :
    (fresh limits locks).Every Q := fun _ _ hd => absurd hd (by simp [fresh, start, Editor.empty])

end Session

namespace Document.Enduring

open Session

variable {Q : Document → Prop} {s t : Session}

theorem onward (hQ : Enduring Q) : Document.Onward fun d c => Q d → Q c where
  refl _ := id
  trans h h' := h' ∘ h
  mark := hQ.mark
  relog := hQ.relog
  apply := hQ.apply
  save := hQ.save
  visit := hQ.visit
  place := hQ.place
  put := hQ.put
  erase := hQ.erase
  clear := hQ.clear

/-- What documents have become has the property when they had it before. -/
theorem every (hQ : Enduring Q) (h : s.editor.Descends (fun d c => Q d → Q c) t.editor)
    (hs : s.Every Q) : t.Every Q := by
  intro root c hc
  rcases h.descent root c hc with ⟨d, hd, hdc⟩ | ⟨-, hempty⟩
  · exact hdc (hs root d hd)
  · exact hempty hQ.empty

theorem move (hQ : Enduring Q) {mark : Option ViewId} (hmove : Move mark s t) (h : s.Every Q) :
    t.Every Q := hQ.every (hQ.onward.move hmove) h

/-- What endures in single documents lasts in all documents of a session. -/
theorem lasting (hQ : Enduring Q) : Lasting (Every Q) where
  move _ hmove h := hQ.move hmove h
  relog root f h := hQ.every (hQ.onward.onward.relog _ root f) h

end Document.Enduring

end Editing
