import Editing.Proofs.Session.Logged
import Editing.Proofs.Session.Marked
import Editing.Proofs.Session.Returning
import Editing.Proofs.Session.Revising

/-!
# Markers in a text put back

A deletion notes how far each marker in the range was from where it would be once the text is put
back, which depends on whether the marker advances. An undo goes by what was noted, while the text
put back carries the marker as it advances by then. So a marker whose insertion type was changed in
between comes to lie outside the text that is put back, unless an end of the whole text stops it.
-/

namespace Editing

namespace Marker

variable {m : Marker} {start stop : Nat}

theorem natAbs_displacement_le (hstart : start ≤ m.position) (hstop : m.position ≤ stop) :
    (m.displacement start stop).natAbs ≤ stop - start := by
  rw [displacement]
  split
  · omega
  · omega

end Marker

/-! ## What deletions note -/

/-- What is noted with a deletion: each marker once, and by what it would be missed, which is no
more than what was deleted. -/
def Record.Measured : Record → Prop
  | delete _ text as => ∀ a ∈ as, (as.filter fun b => b.marker == a.marker) = [a] ∧
      a.amount ≠ 0 ∧ a.amount.natAbs ≤ text.length
  | _ => True

namespace Document

variable {d : Document}

theorem measured_deletionRecord {start stop : Nat} (hstop : stop ≤ d.length) :
    (d.deletionRecord start stop).Measured := by
  intro a ha
  split at ha
  · rename_i haccepts
    obtain ⟨m, hm, ⟨hkind, hlow, hhigh, hne⟩, heq⟩ := exists_of_mem_adjustments ha
    have honce := Markers.filter_adjustments hm hkind start stop
    rw [if_pos ⟨hlow, hhigh, hne⟩, ← heq] at honce
    have hamount : a.amount = m.displacement start stop := by rw [heq]
    have hlength : (d.text.slice start stop).length = stop - start := by
      rw [Text.length_slice, Nat.min_eq_left (show stop ≤ d.text.length from hstop)]
    rw [if_pos haccepts, hlength, hamount]
    exact ⟨honce, hne, Marker.natAbs_displacement_le hlow hhigh⟩
  · cases ha

/-- All records of the log are measured. -/
def Measured (d : Document) : Prop := ∀ r ∈ d.log.records, r.Measured

theorem measured_of_notes {c : Change} (hrange : c.rangeError d.length = none) {r : Record}
    (h : r.Notes d c) : r.Measured := by
  cases c with
  | insert pos text =>
      obtain ⟨start, n, rfl, -⟩ := h
      exact trivial
  | delete start stop =>
      obtain rfl := h
      exact measured_deletionRecord (Change.delete_le hrange).2
  | property start stop key value =>
      obtain rfl := h
      exact trivial

theorem measured_turning : Turning (fun _ => True) Measured :=
  turning_of_records (fun _ => True) trivial fun hrange _ hnotes => measured_of_notes hrange hnotes

end Document

/-- What is noted with a deletion in any reachable session is measured. -/
theorem Session.Reachable.measured {s : Session} (h : s.Reachable) : s.Every Document.Measured :=
  Document.measured_turning.reachable h

/-! ## Where markers go with a text put back -/

namespace Marker

/-- Where a marker goes that is put back with a text, when so many characters were around it and so
much was noted: the text carries it to its end or leaves it at its start, the noted amount is taken
back from there, and the ends of the whole text stop it. -/
def settled (pos n length : Nat) (advances : Bool) (amount : Int) : Nat :=
  let carried : Nat := if advances then pos + n else pos
  (max 0 (min ((length + n : Nat) : Int) (carried - amount))).toNat

variable {pos n length : Nat} {advances : Bool} {amount : Int}

/-- The marker lies in the text that is put back exactly if the noted amount is positive just when it
advances, or if it is stopped by an end of the whole text there. -/
theorem settled_mem_iff (hpos : pos ≤ length) (hne : amount ≠ 0) (hle : amount.natAbs ≤ n) :
    pos ≤ settled pos n length advances amount ∧ settled pos n length advances amount ≤ pos + n ↔
      (advances = true ↔ 0 < amount) ∨ pos = if advances then length else 0 := by
  rw [settled]
  cases advances with
  | false =>
      simp only [Bool.false_eq_true, if_false, false_iff, Int.not_lt]
      omega
  | true =>
      simp only [if_true, true_iff]
      omega

end Marker

/-- A marker where a deletion was goes where the amount says that was noted for it. -/
theorem Record.recede_measured {pos : Nat} {text : Text} {as : List MarkerAdjustment}
    (hr : (Record.delete pos text as).Measured) {a : MarkerAdjustment} (ha : a ∈ as) {m : Marker}
    (hm : m.position = pos) (length : Nat) :
    ((Record.delete pos text as).recede a.marker length m).position =
      Marker.settled pos text.length length m.advances a.amount := by
  have hcarried : (m.afterInsert pos text.length).position =
      if m.advances then pos + text.length else pos := by
    simp only [Marker.afterInsert, Position.afterInsert, hm]
    cases m.advances with
    | false => simp
    | true => simp
  rw [Record.recede, if_pos hm, (hr a ha).1, List.foldl_cons, List.foldl_nil, Marker.readjusted,
    hcarried, Marker.settled]

/-- A marker that has a place lies there in the document, and advances as is known of it. -/
theorem Editor.WellFormed.seat_of_answers {e : Editor} (h : e.WellFormed) {marker : MarkerId}
    {home root : ViewId} {pos : Nat} {advances : Bool} {d : Document}
    (hview : e.markerView marker = .ok (some home)) (hroot : e.rootOf home = .ok root)
    (hat : e.markerPosition marker = .ok (some pos))
    (hadvances : e.markerAdvances marker = .ok advances) (hd : e.documents.get? root = some d) :
    d.seat marker = some ⟨pos, advances, .user⟩ := by
  obtain ⟨x, hx, hhome⟩ := h.home_of_markerView hview hroot
  obtain ⟨v, c, hs, p, hp, -⟩ := h.marking.homed marker x _ hx hhome
  obtain rfl := Option.some.inj (hs.document.symm.trans hd)
  rw [Editor.markerPosition_of_lies h.registry h.marking hd hp rfl] at hat
  rw [Editor.markerAdvances, Editor.userMarker_of_get hx] at hadvances
  cases hat
  cases hadvances
  exact Document.seat_eq_some.mpr ⟨hp, rfl⟩

namespace Session

variable {s m u : Session} {view root home : ViewId} {v : View} {d : Document} {r : Record}
  {done rest : List Record}

/-- The session in which an undo begins to take back the next group of a root's log. -/
def undoing (s : Session) (root : ViewId) : Session :=
  ((Act.changeLog root UndoLog.beginReplay).run ((Act.takeGroup root).run s).2).2

/-- An undo through a view takes a record back, which leads from one session to another: the record
is in the next group, and the records before it have been taken back. -/
inductive Undoes (s : Session) (view : ViewId) (r : Record) (m u : Session) : Prop
  | intro {root : ViewId} {done rest : List Record} (hroot : s.editor.rootOf view = .ok root)
      (htake : ((Act.takeGroup root).run s).1 = .ok (done ++ r :: rest))
      (hdone : (Act.replayAll view root done).run (s.undoing root) = (.ok (), m))
      (hrun : (Act.replay view root r).run m = (.ok (), u))

/-- The newest record of the group is taken back first. -/
theorem undoes_newest (hroot : s.editor.rootOf view = .ok root)
    (htake : ((Act.takeGroup root).run s).1 = .ok (r :: rest))
    (hrun : ((Act.replay view root r).run (s.undoing root)).1 = .ok ()) :
    s.Undoes view r (s.undoing root) ((Act.replay view root r).run (s.undoing root)).2 :=
  @Undoes.intro s view r (s.undoing root) _ root [] rest hroot htake rfl (Prod.ext hrun rfl)

theorem undoing_eq {w : View} (hs : s.editor.Shows root w root d) :
    s.undoing root = s.onDocument root fun _ => d.begun := by
  rw [undoing, Act.run_takeGroup hs, Act.run_beginReplay hs]

theorem Replaying.initial (h : s.Replaying view v root d (done ++ rest)) :
    s.Replaying view v root d done where
  wellFormed := h.wellFormed
  shows := h.shows
  replaying := h.replaying
  noted a ha := h.noted a (by rw [Record.adjusted_append]; exact List.mem_append_left _ ha)

/-- The session in which a record is taken back, and what taking it back does there. -/
theorem Undoes.replaying (h : s.Undoes view r m u) (hs : s.editor.WellFormed) :
    ∃ root v c rest, m.Replaying view v root c (r :: rest) ∧ m.Allows root v c r ∧
      u = m.replayed root v c r ∧ ∃ d, s.editor.documents.get? root = some d ∧
      r ∈ d.log.boundary.records := by
  obtain @⟨root, done, rest, hroot, htake, hdone, hrun⟩ := h
  obtain ⟨v, d, hshows⟩ := hs.registry.shows_of_rootOf hroot
  obtain ⟨w, hw, -⟩ := hs.registry.shows_root hshows.document
  rw [Act.run_takeGroup hw] at htake
  rw [undoing_eq hw] at hdone
  have hreplaying := replaying_begun hs hshows htake
  have hmem := ((hs.admits hshows.document).log.boundary.mem_of_nextGroup htake).2.2 r
    (List.mem_append_right _ List.mem_cons_self)
  -- None of the records before has been refused, or the undo would have ended there.
  rcases hreplaying.initial.run_replayAll with ⟨hallows, heq⟩ | ⟨_, _, _, _, _, -, -, -, heq⟩
  · rw [hdone] at heq
    obtain ⟨-, rfl⟩ := Prod.mk.inj heq
    have hm := hreplaying.nextAll hallows
    rw [Act.run_replay hm] at hrun
    split at hrun
    · cases hrun
    · rename_i hvisible
      split at hrun
      · cases hrun
      · rename_i hgranted
        obtain ⟨-, rfl⟩ := Prod.mk.inj hrun
        exact ⟨root, v, _, rest, hm, ⟨Bool.eq_false_iff.mpr hvisible, hgranted⟩, rfl, d,
          hshows.document, hmem⟩
  · rw [hdone] at heq
    cases heq

theorem mem_stages {begun : Session}
    (hdone : (Act.replayAll view root done).run begun = (.ok (), m))
    (hrun : (Act.replay view root r).run m = (.ok (), u)) (rest : List Record) :
    u ∈ stages view root (done ++ r :: rest) begun := by
  induction done generalizing begun with
  | nil =>
      obtain ⟨-, rfl⟩ := Prod.mk.inj hdone
      rw [List.nil_append, stages, hrun]
      exact List.mem_cons_self
  | cons x done ih =>
      obtain ⟨_, t, hx, hdone⟩ := Act.exists_of_bind hdone
      rw [List.cons_append, stages, hx]
      exact List.mem_cons_of_mem _ (ih hdone)

/-- The session that a record has been taken back in is one that the undo passes through. -/
theorem Undoes.mem_moments (h : s.Undoes view r m u) (hs : s.editor.WellFormed) :
    u ∈ s.moments (.undo view) := by
  obtain @⟨root, done, rest, hroot, htake, hdone, hrun⟩ := h
  obtain ⟨v, d, hshows⟩ := hs.registry.shows_of_rootOf hroot
  obtain ⟨w, hw, -⟩ := hs.registry.shows_root hshows.document
  have henabled : s.editor.undoEnabled view = .ok true := by
    rw [hshows.undoEnabled_eq, ← UndoLog.isEnabled_boundary]
    rw [Act.run_takeGroup hw] at htake
    cases he : d.log.boundary.isEnabled with
    | true => rfl
    | false =>
        rw [UndoLog.nextGroup_of_disabled he] at htake
        cases htake
  rcases htaken : (Act.takeGroup root).run s with ⟨outcome, taken⟩
  have hundoing : s.undoing root = ((Act.changeLog root UndoLog.beginReplay).run taken).2 := by
    rw [undoing, htaken]
  obtain rfl : outcome = .ok (done ++ r :: rest) := by
    rw [htaken] at htake
    exact htake
  have hpassages : s.passages view =
      taken :: s.undoing root :: stages view root (done ++ r :: rest) (s.undoing root) := by
    rw [passages, henabled, hroot, hundoing]
    simp only [htaken]
  apply List.mem_append_left
  rw [hpassages]
  exact List.mem_cons_of_mem _ (List.mem_cons_of_mem _ (mem_stages hdone hrun rest))

/-- A marker of the user that a deletion has moved, and that lies where the deletion was when an
undo takes it back, goes where the text that is put back carries it, less what was noted then. It
comes to lie in that text exactly if the noted amount is positive just when the marker advances, or
if the end of the whole text that it passes is there. -/
theorem undone_deletion_settles (h : s.Reachable) {pos : Nat} {text : Text}
    {as : List MarkerAdjustment} (hundo : s.Undoes view (.delete pos text as) m u)
    {a : MarkerAdjustment} (ha : a ∈ as) {advances : Bool}
    (hview : m.editor.markerView a.marker = .ok (some home))
    (hroot : m.editor.rootOf home = m.editor.rootOf view)
    (hat : m.editor.markerPosition a.marker = .ok (some pos))
    (hadvances : m.editor.markerAdvances a.marker = .ok advances) :
    u ∈ s.moments (.undo view) ∧ ∃ before, m.editor.fullText view = .ok before ∧
      u.editor.fullText view = .ok (before.insert pos text) ∧
      let q := Marker.settled pos text.length before.length advances a.amount
      u.editor.markerPosition a.marker = .ok (some q) ∧
      (pos ≤ q ∧ q ≤ pos + text.length ↔
        (advances = true ↔ 0 < a.amount) ∨ pos = if advances then before.length else 0) := by
  have hs := h.atRest.wellFormed
  refine ⟨hundo.mem_moments hs, ?_⟩
  obtain ⟨root, v, c, rest, hm, hallows, rfl, d, hd, hmem⟩ := hundo.replaying hs
  have hseats := hm.seats
  have hmeasured : (Record.delete pos text as).Measured := by
    rw [(hs.admits hd).log.records_boundary] at hmem
    split at hmem
    · rcases Record.mem_close hmem with hclosed | hmem
      · cases hclosed
      · exact h.measured root d hd _ hmem
    · exact h.measured root d hd _ hmem
  have hfits : pos ≤ c.text.length := of_decide_eq_true (hseats.fits hallows.visible)
  -- The marker as it lies in the document before and after.
  have hseat : c.seat a.marker = some ⟨pos, advances, .user⟩ := by
    rw [hm.shows.rootOf_eq] at hroot
    exact hm.wellFormed.seat_of_answers hview hroot hat hadvances hm.shows.document
  have hseat' := Document.seat_replayed hseats.seat_point (.delete pos text as) a.marker
  rw [hseat, Option.map_some] at hseat'
  obtain ⟨hget, hkind⟩ := Document.seat_eq_some.mp hseat'
  have hnext := hm.next hallows
  have hposition := Editor.markerPosition_of_lies hnext.wellFormed.registry
    hnext.wellFormed.marking hnext.shows.document hget hkind
  refine ⟨c.text, hm.shows.fullText_eq, ?_, ?_, ?_⟩
  · rw [hnext.shows.fullText_eq, Document.text_replayed]
    rfl
  · rw [hposition, Record.recede_measured hmeasured ha rfl]
    rfl
  · exact Marker.settled_mem_iff hfits (hmeasured a ha).2.1 (hmeasured a ha).2.2

/-- A marker that does not advance is in the range that has been deleted last. -/
def collapsedMarker : List Op :=
  [.createRoot "v", .insert 0 "abcdefghij".toList, .makeMarker, .placeMarker 3 0 4, .closeGroup 0,
    .deleteRegion 0 2 5]

theorem collapsedMarker_settles :
    let s := (fresh .default none).afterAll collapsedMarker
    let r := Record.delete 2 "cde".toList [⟨3, -2⟩]
    let u := ((Act.replay 0 0 r).run (s.undoing 0)).2
    s.Reachable ∧ s.Undoes 0 r (s.undoing 0) u ∧
      (s.undoing 0).editor.markerPosition 3 = .ok (some 2) ∧
      u.editor.fullText 0 = .ok "abcdefghij".toList ∧
      u.editor.markerPosition 3 = .ok (some 4) ∧ 2 ≤ 4 ∧ 4 ≤ 2 + 3 := by
  intro s r u
  have hreachable : s.Reachable := (Reachable.fresh .default none).afterAll collapsedMarker
  have htake : ((Act.takeGroup 0).run s).1 = .ok [r] := by decide +kernel
  have hundo : s.Undoes 0 r (s.undoing 0) u :=
    undoes_newest (by decide +kernel) htake (by decide +kernel)
  have hat : (s.undoing 0).editor.markerPosition 3 = .ok (some 2) := by decide +kernel
  have hview : (s.undoing 0).editor.markerView 3 = .ok (some 0) := by decide +kernel
  have hadvances : (s.undoing 0).editor.markerAdvances 3 = .ok false := by decide +kernel
  obtain ⟨-, before, hbefore, htext, hposition, hiff⟩ :=
    undone_deletion_settles hreachable hundo List.mem_cons_self hview rfl hat hadvances
  have hlength : before = "abfghij".toList := by
    have hread : (s.undoing 0).editor.fullText 0 = .ok "abfghij".toList := by decide +kernel
    exact Except.ok.inj (hbefore.symm.trans hread)
  subst hlength
  exact ⟨hreachable, hundo, hat, htext, hposition, hiff.mpr (Or.inl (by decide))⟩

/-- When the marker is made to advance after the deletion, it comes to lie behind the text that the
undo puts back. -/
theorem collapsedMarker_strays :
    let s := ((fresh .default none).afterAll collapsedMarker).after (.setMarkerAdvances 3 true)
    let r := Record.delete 2 "cde".toList [⟨3, -2⟩]
    let u := ((Act.replay 0 0 r).run (s.undoing 0)).2
    s.Reachable ∧ s.Undoes 0 r (s.undoing 0) u ∧
      (s.undoing 0).editor.markerPosition 3 = .ok (some 2) ∧
      u.editor.fullText 0 = .ok "abcdefghij".toList ∧
      u.editor.markerPosition 3 = .ok (some 7) ∧ ¬7 ≤ 2 + "cde".toList.length ∧
      (s.after (.undo 0)).editor.markerPosition 3 = .ok (some 7) := by
  intro s r u
  have hreachable : s.Reachable :=
    ((Reachable.fresh .default none).afterAll collapsedMarker).after _
  have htake : ((Act.takeGroup 0).run s).1 = .ok [r] := by decide +kernel
  have hundo : s.Undoes 0 r (s.undoing 0) u :=
    undoes_newest (by decide +kernel) htake (by decide +kernel)
  exact ⟨hreachable, hundo, by decide +kernel, by decide +kernel, by decide +kernel, by decide,
    by decide +kernel⟩

end Session

end Editing
