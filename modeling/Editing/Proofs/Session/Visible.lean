import Editing.Proofs.History.Grouping
import Editing.Proofs.Session.Undone

/-!
# Undoing in a view of the whole text

A view that shows the whole text goes on doing so while records are taken back, and it hides none of
those that fit when their turn comes. There only the lock of the file can stand in the way.
-/

namespace Editing

/-- A view shows the whole text. -/
structure Document.IsWide (d : Document) (ids : ViewMarkers) : Prop where
  low : (d.extent ids).low = 0
  high : (d.extent ids).high = d.length

theorem Editor.Shows.isWide {e : Editor} {view root : ViewId} {v : View} {d : Document}
    (h : e.Shows view v root d) (hwide : e.isNarrowed view = .ok false) : d.IsWide v.markers := by
  rw [h.isNarrowed_eq] at hwide
  obtain ⟨hlow, hhigh⟩ := Bool.or_eq_false_iff.mp (Except.ok.inj hwide)
  exact ⟨by simpa using hlow, by simpa using hhigh⟩

namespace Document

variable {d c : Document} {ids : ViewMarkers} {r : Record}

theorem IsWide.congr (h : d.IsWide ids) (hx : c.extent ids = d.extent ids)
    (hlen : c.length = d.length) : c.IsWide ids :=
  ⟨by rw [hx, h.low], by rw [hx, h.high, hlen]⟩

theorem IsWide.goto (h : d.IsWide ids) {next : MarkerId} (hids : ids.Distinct next) (pos : Nat) :
    (d.setPosition ids.point pos).IsWide ids := by
  have hget : ∀ id, id ≠ ids.point →
      (d.setPosition ids.point pos).markers.get? id = d.markers.get? id := by
    intro id hid
    exact (Table.get?_modify _ _ _ _).trans (if_neg hid)
  have hlow : ((d.setPosition ids.point pos).extent ids).low = (d.extent ids).low := by
    simp only [extent, Markers.position?, hget ids.low hids.low_ne]
    rfl
  have hhigh : ((d.setPosition ids.point pos).extent ids).high = (d.extent ids).high := by
    simp only [extent, Markers.position?, hget ids.low hids.low_ne, hget ids.high hids.high_ne]
    rfl
  exact ⟨hlow.trans h.low, hhigh.trans h.high⟩

theorem IsWide.insert (h : d.IsWide ids) (hs : d.Seats ids) {pos : Nat} (hpos : pos ≤ d.length)
    (text : Text) : (d.insert pos text).IsWide ids := by
  have hx := (d.shifted_insert pos text).extent_eq hs
  have hlen : (d.insert pos text).length = d.length + text.length := Text.length_insert _ _ _
  constructor
  · rw [hx]
    change Position.afterInsert false pos text.length (d.extent ids).low = 0
    rw [h.low, Position.afterInsert]
    exact if_neg (by simp)
  · rw [hx, hlen]
    change Position.afterInsert true pos text.length (d.extent ids).high = _
    rw [h.high, Position.afterInsert]
    apply if_pos
    rcases Nat.lt_or_eq_of_le hpos with hlt | heq
    · exact Or.inl hlt
    · exact Or.inr ⟨heq.symm, rfl⟩

theorem IsWide.delete (h : d.IsWide ids) (hs : d.Seats ids) {start stop : Nat} (hle : start ≤ stop)
    (hstop : stop ≤ d.length) : (d.delete start stop).IsWide ids := by
  have hx := (d.shifted_delete hle hstop).extent_eq hs
  have hlen : (d.delete start stop).length = d.length - (stop - start) := by
    change (d.text.remove start stop).length = d.text.length - (stop - start)
    rw [Text.length_remove, Text.length_slice,
      Nat.min_eq_left (show stop ≤ d.text.length from hstop)]
  constructor
  · rw [hx]
    change Position.afterDelete start stop (d.extent ids).low = 0
    rw [h.low, Position.afterDelete, if_neg (Nat.not_lt_zero _), if_neg (Nat.not_lt_zero _)]
  · rw [hx, hlen]
    change Position.afterDelete start stop (d.extent ids).high = _
    rw [h.high, Position.afterDelete]
    split
    · rfl
    · split <;> omega

theorem IsWide.revised (h : d.IsWide ids) (hs : d.Seats ids) {c : Change}
    (hrange : c.rangeError d.length = none) : (d.revised c).IsWide ids := by
  rw [Document.revised]
  split
  · exact h
  · cases c with
    | insert pos text =>
        have hinserted := h.insert hs (Change.insert_le hrange) text
        exact ⟨hinserted.low, hinserted.high⟩
    | delete start stop =>
        obtain ⟨hle, hstop⟩ := Change.delete_le hrange
        have hdeleted := h.delete hs hle hstop
        exact ⟨hdeleted.low, hdeleted.high⟩
    | property start stop key value => exact ⟨h.low, h.high⟩

/-- A view that shows the whole text hides no record that fits. -/
theorem IsWide.isHidden_eq (h : d.IsWide ids) (hf : r.fits d.length = true) :
    r.isHidden (d.extent ids) = false := by
  cases r with
  | insert pos n =>
      have hstop : pos + n ≤ d.length := of_decide_eq_true hf
      simp only [Record.isHidden, Record.bounds, h.low, h.high, Nat.not_lt_zero, decide_false,
        Bool.false_or, decide_eq_false_iff_not, Nat.not_lt, hstop]
  | delete pos text as =>
      have hstop : pos ≤ d.length := of_decide_eq_true hf
      simp only [Record.isHidden, Record.bounds, h.low, h.high, Nat.not_lt_zero, decide_false,
        Bool.false_or, decide_eq_false_iff_not, Nat.not_lt, hstop]
  | property start stop key value =>
      have hstop : stop ≤ d.length := of_decide_eq_true hf
      simp only [Record.isHidden, Record.bounds, h.low, h.high, Nat.not_lt_zero, decide_false,
        Bool.false_or, decide_eq_false_iff_not, Nat.not_lt, hstop]
  | boundary => rfl

end Document

namespace Session

variable {s t : Session} {view root : ViewId} {v : View} {d : Document} {r : Record}
    {rs : List Record}

namespace Replaying

theorem wide_replayed (h : s.Replaying view v root d (r :: rs)) (hw : d.IsWide v.markers)
    (hf : r.fits d.length = true) : (d.replayed v.markers.point r).IsWide v.markers := by
  have hids := h.wellFormed.marking.distinct view v h.shows.live
  cases r with
  | insert pos n => exact (hw.revised h.seats (Document.rangeError_inverse hf rfl)).goto hids pos
  | delete pos text as =>
      refine Document.IsWide.goto ?_ hids pos
      refine (hw.revised h.seats (Document.rangeError_inverse hf rfl)).congr ?_ ?_
      · exact Document.extent_readjustAll fun a ha => h.outside rfl a (List.mem_filter.mp ha).1
      · rw [Document.length, Document.text_readjustAll, Document.length]
  | property start stop key value => exact hw
  | boundary => exact hw

/-- A view goes on showing the whole text, and what is left goes on fitting. -/
theorem wide_replayedAll {done rest : List Record}
    (h : s.Replaying view v root d (done ++ rest)) (ha : AllowsAll root v s d done)
    (hw : d.IsWide v.markers) (hf : Record.FitsAll (done ++ rest) d.text) :
    (d.replayedAll v.markers.point done).IsWide v.markers ∧
      Record.FitsAll rest (d.replayedAll v.markers.point done).text := by
  induction done generalizing s d with
  | nil => exact ⟨hw, hf⟩
  | cons r done ih =>
      apply ih (h.next ha.1) ha.2 (h.wide_replayed hw hf.1)
      rw [Document.text_replayed]
      exact hf.2

theorem fitsAll_of_allowsAll (h : s.Replaying view v root d rs) (ha : AllowsAll root v s d rs) :
    Record.FitsAll rs d.text := by
  induction rs generalizing s d with
  | nil => trivial
  | cons r rs ih =>
      have hrest := ih (h.next ha.1) ha.2
      rw [Document.text_replayed] at hrest
      exact ⟨h.seats.fits ha.1.visible, hrest⟩

/-- In a view of the whole text, records that fit are taken back unless a lock is refused. -/
theorem blocks_wide {done rest : List Record} {e : Error}
    (h : s.Replaying view v root d (done ++ r :: rest)) (ha : AllowsAll root v s d done)
    (hw : d.IsWide v.markers) (hf : Record.FitsAll (done ++ r :: rest) d.text)
    (hb : (s.replayedAll root v d done).Blocks root v (d.replayedAll v.markers.point done) r e t) :
    ∃ path reason, e = .lockRefused reason ∧
      t = (s.replayedAll root v d done).called (.lockRefused root path) := by
  obtain ⟨hwide, hfits⟩ := h.wide_replayedAll ha hw hf
  cases hb with
  | hidden hhidden =>
      rw [hwide.isHidden_eq hfits.1] at hhidden
      cases hhidden
  | refused hvisible hrefused => exact ⟨_, _, rfl, rfl⟩

end Replaying

end Session

end Editing
