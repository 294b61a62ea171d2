import Editing.Proofs.Session.Revising
import Editing.Proofs.Text.Parts

/-!
# What views see of a change

Views of one text have their bounds and their points each for itself. After a change made through
any one of them, or raw, or in an undo, every view shows what it showed before with the change as
far as it lies there: text inserted at either bound comes inside, and text inserted at the point
comes behind it.
-/

namespace Editing

namespace Change

/-- What a change makes of the text that a view shows. -/
def seen (x : Extent) (text : Text) : Change → Text
  | insert pos added =>
      if x.low ≤ pos ∧ pos ≤ x.high then text.insert (pos - x.low) added else text
  | delete start stop => Text.without start stop x.low text
  | property .. => text

/-- What a change makes of the text that a view shows before its point. -/
def seenToPoint (x : Extent) (text : Text) : Change → Text
  | insert pos added =>
      if x.low ≤ pos ∧ pos < x.point then text.insert (pos - x.low) added else text
  | delete start stop => Text.without start stop x.low text
  | property .. => text

end Change

namespace Editor

/-- The text that a view shows before its point. -/
def textToPoint (e : Editor) (view : ViewId) : Except Error Text := do
  let x ← e.extent view
  e.substring view x.low x.point

variable {e : Editor} {view root : ViewId} {v : View} {d : Document}

theorem Shows.text_eq (h : e.Shows view v root d) :
    e.text view = .ok (d.text.slice (d.extent v.markers).low (d.extent v.markers).high) := by
  rw [text, h.extent_eq, h.document_eq]
  rfl

theorem Shows.textToPoint_eq (h : e.Shows view v root d) (hs : d.Seats v.markers) :
    e.textToPoint view =
      .ok (d.text.slice (d.extent v.markers).low (d.extent v.markers).point) := by
  have hordered : Position.ordered (d.extent v.markers).low (d.extent v.markers).point =
      ((d.extent v.markers).low, (d.extent v.markers).point) := by
    rw [Position.ordered, if_pos hs.low_le]
  have hrange := h.accessibleRange_eq (d.extent v.markers).low (d.extent v.markers).point
  rw [hordered, if_neg (by have := hs.le_high; omega)] at hrange
  rw [textToPoint, h.extent_eq]
  change e.substring view (d.extent v.markers).low (d.extent v.markers).point = _
  rw [substring, hrange, h.document_eq]
  rfl

end Editor

/-! ## Changes of what a view shows -/

theorem Position.between_bounds {low pos high : Nat} :
    Between false true pos low high ↔ low ≤ pos ∧ pos ≤ high := by
  grind [Between]

theorem Position.between_point {low pos point : Nat} :
    Between false false pos low point ↔ low ≤ pos ∧ pos < point := by
  grind [Between]

namespace Change

/-- A change that changes nothing is not seen. -/
theorem seen_of_void {c : Change} (h : c.isVoid = true) (x : Extent) (text : Text) :
    c.seen x text = text ∧ c.seenToPoint x text = text := by
  cases c with
  | insert pos added =>
      obtain rfl : added = [] := List.isEmpty_iff.mp h
      simp [seen, seenToPoint]
  | delete start stop =>
      obtain rfl : start = stop := by simpa [isVoid] using h
      exact ⟨Text.without_self _ _ _, Text.without_self _ _ _⟩
  | property start stop key value => cases h

end Change

namespace Document

variable {d : Document} {ids : ViewMarkers} {c : Change}

/-- After a change a view shows what it showed before, changed as far as the change lies there. -/
theorem slice_apply (hs : d.Seats ids) (hrange : c.rangeError d.length = none) :
    (d.apply c).text.slice ((d.apply c).extent ids).low ((d.apply c).extent ids).high =
        c.seen (d.extent ids) (d.text.slice (d.extent ids).low (d.extent ids).high) ∧
      (d.apply c).text.slice ((d.apply c).extent ids).low ((d.apply c).extent ids).point =
        c.seenToPoint (d.extent ids) (d.text.slice (d.extent ids).low (d.extent ids).point) := by
  have hlow := hs.low_le
  have hpoint := hs.le_high
  have hhigh : (d.extent ids).high ≤ d.text.length := hs.high_le
  have hbounds := Nat.le_trans hlow hpoint
  have hinside := Nat.le_trans hpoint hhigh
  cases c with
  | insert pos added =>
      have hshift := d.shifted_insert pos added
      rw [show d.apply (.insert pos added) = d.insert pos added from rfl, hshift.extent_eq hs]
      constructor
      · rw [Change.seen, ← ite_congr (propext Position.between_bounds) (fun _ => rfl) fun _ => rfl]
        exact Text.slice_insert false true hbounds hhigh added (hshift.mono true _ _ hbounds)
      · rw [Change.seenToPoint,
          ← ite_congr (propext Position.between_point) (fun _ => rfl) fun _ => rfl]
        exact Text.slice_insert false false hlow hinside added (hshift.mono false _ _ hlow)
  | delete start stop =>
      obtain ⟨hle, hstop⟩ := Change.delete_le hrange
      have hshift := d.shifted_delete hle hstop
      rw [show d.apply (.delete start stop) = d.delete start stop from rfl, hshift.extent_eq hs]
      exact ⟨Text.slice_remove hbounds hhigh hle hstop, Text.slice_remove hlow hinside hle hstop⟩
  | property start stop key value => exact ⟨rfl, rfl⟩

/-- After a change the markers of a view are in order again. -/
theorem seats_apply (hs : d.Seats ids) (hrange : c.rangeError d.length = none) :
    (d.apply c).Seats ids := by
  cases c with
  | insert pos added => exact (d.shifted_insert pos added).seats hs
  | delete start stop =>
      obtain ⟨hle, hstop⟩ := Change.delete_le hrange
      exact (d.shifted_delete hle hstop).seats hs
  | property start stop key value => exact (d.shifted_noteProperty start stop key value).seats hs

theorem slice_revised (hs : d.Seats ids) (hrange : c.rangeError d.length = none) :
    (d.revised c).Seats ids ∧
      (d.revised c).text.slice ((d.revised c).extent ids).low ((d.revised c).extent ids).high =
        c.seen (d.extent ids) (d.text.slice (d.extent ids).low (d.extent ids).high) ∧
      (d.revised c).text.slice ((d.revised c).extent ids).low ((d.revised c).extent ids).point =
        c.seenToPoint (d.extent ids) (d.text.slice (d.extent ids).low (d.extent ids).point) := by
  rw [revised]
  split
  · rename_i hvoid
    rw [(Change.seen_of_void hvoid _ _).1, (Change.seen_of_void hvoid _ _).2]
    exact ⟨hs, rfl, rfl⟩
  · -- Whether the lock is held matters neither to the text nor to the markers.
    have hlocked : Document.Seats { d with locked := d.locked || d.wanted.isSome } ids :=
      hs.congr rfl rfl rfl rfl
    exact ⟨seats_apply hlocked hrange, slice_apply hlocked hrange⟩

end Document

namespace Session

variable {s t : Session} {view w root : ViewId} {v vw : View} {d b : Document} {c : Change}

theorem Amended.text_eq (h : s.Amended view v root d c t b) (hm : s.editor.Marking)
    (hw : s.editor.Shows w vw root d) :
    t.editor.text w = .ok (c.seen (d.extent vw.markers)
      (d.text.slice (d.extent vw.markers).low (d.extent vw.markers).high)) := by
  obtain ⟨-, hseen, -⟩ := Document.slice_revised (hm.seated w vw root d hw) h.range
  rw [(h.shows_other hw).text_eq, h.text, h.low_eq hm hw.live, h.high_eq hm hw.live, hseen]

theorem Amended.textToPoint_eq (h : s.Amended view v root d c t b) (hm : s.editor.Marking)
    (hw : s.editor.Shows w vw root d) (hne : w ≠ view) :
    t.editor.textToPoint w = .ok (c.seenToPoint (d.extent vw.markers)
      (d.text.slice (d.extent vw.markers).low (d.extent vw.markers).point)) := by
  obtain ⟨hseats, -, hpoint⟩ := Document.slice_revised (hm.seated w vw root d hw) h.range
  have hapart := hm.apart view v w vw h.shows.live hw.live (Ne.symm hne)
  have hb : b.Seats vw.markers := hseats.congr
    (h.point_stays hm hw.live hne) (h.bounds hm hw.live).1 (h.bounds hm hw.live).2 h.length_eq
  rw [(h.shows_other hw).textToPoint_eq hb, h.text, h.extent_eq hm hw.live hne, hpoint]

theorem textToPoint_changed (hs : s.editor.Shows view v root d)
    (h : (Act.makeChange view c).run s = (.ok (), t)) (hm : s.editor.Marking)
    (hw : s.editor.Shows w vw root d) :
    t.editor.textToPoint w = .ok (c.seenToPoint (d.extent vw.markers)
      (d.text.slice (d.extent vw.markers).low (d.extent vw.markers).point)) := by
  obtain ⟨hamended, -⟩ := amended_of_change hs h
  obtain ⟨hseats, -, hpoint⟩ :=
    Document.slice_revised (hm.seated w vw root d hw) hamended.range
  rw [(hamended.shows_other hw).textToPoint_eq hseats, hpoint]

/-- At every moment of a run, within an undo too, when the text of a root is changed once: every
live view of the root shows afterwards what it showed before with the change as far as it lies
there, and likewise before its point. The point of the view through which the change is made is
told right after the change by itself, as operations move it afterwards. -/
theorem views_see_changes (limits : Limits) (locks : Option LockProtocol) (steps : List Step) :
    ∀ s ∈ fresh limits locks :: runMoments steps (fresh limits locks),
      ∀ view w root, s.editor.rootOf view = .ok root → s.editor.rootOf w = .ok root →
        ∃ x text before, s.editor.extent w = .ok x ∧ s.editor.text w = .ok text ∧
          s.editor.textToPoint w = .ok before ∧
          ∀ c t,
            (s.Revises view c t → t.editor.text w = .ok (c.seen x text) ∧
              (w ≠ view → t.editor.textToPoint w = .ok (c.seenToPoint x before))) ∧
            ((Act.makeChange view c).run s = (.ok (), t) →
              t.editor.text w = .ok (c.seen x text) ∧
                t.editor.textToPoint w = .ok (c.seenToPoint x before)) := by
  intro s hmoment view w root hview hw
  obtain ⟨hregistry, hmarking⟩ := moment_settled hmoment
  have hnoted := run_noted limits locks steps s hmoment
  obtain ⟨v, d, hs⟩ := hregistry.shows_of_rootOf hview
  obtain ⟨vw, d', hsw⟩ := hregistry.shows_of_rootOf hw
  obtain rfl := Option.some.inj (hs.document.symm.trans hsw.document)
  have hseats := hmarking.seated w vw root d hsw
  refine ⟨_, _, _, hsw.extent_eq, hsw.text_eq, hsw.textToPoint_eq hseats, fun c t => ⟨?_, ?_⟩⟩
  · intro hrevises
    obtain ⟨b, hamended⟩ := hrevises.amended ⟨hregistry, hmarking⟩ hnoted hs
    exact ⟨hamended.text_eq hmarking hsw, hamended.textToPoint_eq hmarking hsw⟩
  · intro hchange
    exact ⟨(amended_of_change hs hchange).1.text_eq hmarking hsw,
      textToPoint_changed hs hchange hmarking hsw⟩

/-- A run that undoes a deletion while a view shows nothing but the place where it was. -/
def hollowView : List Step :=
  [.op (.createRoot "v"), .op (.insert 0 "abcd".toList), .op (.closeGroup 0),
    .op (.deleteRaw 0 1 3), .op (.createIndirect 0 "w"), .op (.narrow 1 1 1), .op (.undo 0)]

/-- The moment of the run when the undo is about to take the deletion back. -/
def hollowMoment : Session :=
  (fresh .default none :: runMoments hollowView (fresh .default none)).getD 8 (fresh .default none)

theorem hollowView_sees :
    hollowMoment ∈ fresh .default none :: runMoments hollowView (fresh .default none) ∧
      hollowMoment.editor.extent 1 = .ok ⟨1, 1, 1⟩ ∧
      ∃ t, hollowMoment.Revises 0 (.insert 1 "bc".toList) t ∧
        t.editor.text 1 = .ok "bc".toList ∧ t.editor.textToPoint 1 = .ok [] := by
  have hmoment : hollowMoment ∈ fresh .default none ::
      runMoments hollowView (fresh .default none) := by
    have hninth : 8 < (fresh .default none ::
        runMoments hollowView (fresh .default none)).length := by decide +kernel
    rw [hollowMoment, List.getD_eq_getElem?_getD, List.getElem?_eq_getElem hninth]
    exact List.getElem_mem hninth
  have hextent : hollowMoment.editor.extent 1 = .ok ⟨1, 1, 1⟩ := by decide +kernel
  have htext : hollowMoment.editor.text 1 = .ok [] := by decide +kernel
  have hbefore : hollowMoment.editor.textToPoint 1 = .ok [] := by decide +kernel
  have hrecords : hollowMoment.editor.undoRecords 0 =
      .ok [.boundary, .delete 1 "bc".toList [], .boundary, .insert 0 4] := by decide +kernel
  have hrevises : hollowMoment.Revises 0 (.insert 1 "bc".toList)
      ((Act.replay 0 0 (.delete 1 "bc".toList [])).run hollowMoment).2 :=
    .replay (by decide +kernel) hrecords (by decide) rfl (Prod.ext (by decide +kernel) rfl)
  obtain ⟨x, text, before, hx, ht, hb, hsees⟩ := views_see_changes .default none hollowView
    hollowMoment hmoment 0 1 0 (by decide +kernel) (by decide +kernel)
  obtain rfl := Except.ok.inj (hextent.symm.trans hx)
  obtain rfl := Except.ok.inj (htext.symm.trans ht)
  obtain rfl := Except.ok.inj (hbefore.symm.trans hb)
  obtain ⟨hshown, hpoint⟩ := (hsees _ _).1 hrevises
  exact ⟨hmoment, hextent, _, hrevises, hshown, hpoint (by decide)⟩

end Session

end Editing
